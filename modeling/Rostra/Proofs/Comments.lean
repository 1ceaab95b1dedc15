/-
# Listings of several versions are complete

The replies to a post are listed from all of its versions at once.  Each version has its own range of
the index, a heap merges them, and the cursor of the next page is the last record of this one.

* The heap loop is a merge of the streams (`paginateSocialPostIndexRev_eq`), whatever is loaded and
  wherever it stops.
* The rows behind a cursor are those behind it in every stream, so a page goes on where the last one
  stopped (`beyond_resume`).
* Every listed row has a record, because the index holds the rows of the posts that are shown.  Hence
  following the cursors gives each row once, and the counters, which are kept apart from the rows, add
  up to as many (`comments_complete`).

The claim is about whole listings, and a caller sees pages only. So the result is stated for the list that all
cursors lead through: a page is a stretch of it, the next page is the next stretch, and the counter is its length.
Which replies are in it is a matter of the versions, and these are those of the post's own author
(`Proofs/Versions`).
-/
import Rostra.Lib.Cursor
import Rostra.Lib.Merge
import Rostra.Proofs.Versions

namespace Rostra.Db

open Rostra Merge

section Loop

/-! ## 1. The heap loop

The heap holds the next row of every stream. That the loop takes them in order is a fact about merging, for any
streams that are ordered. -/

variable {T : Type}

/-- The next row of a stream takes the place of the one that was taken. -/
theorem pullStream_heads {ls : List (List IndexKey)} {i : ℕ} {k : IndexKey} {rest : List IndexKey}
    (hi : ls[i]? = some (k :: rest)) :
    pullStream (ls.map List.tail, (heads ls).erase (toLex (k, i))) i =
      ((ls.set i rest).map List.tail, heads (ls.set i rest)) := by
  have htails : (ls.map List.tail)[i]? = some rest := by rw [List.getElem?_map, hi]; rfl
  have hheads : ∀ x, x ∈ (heads ls).erase (toLex (k, i)) ↔ x ∈ heads ls ∧ x ≠ toLex (k, i) :=
    fun x => by rw [Finset.mem_erase, and_comm]
  unfold pullStream
  dsimp only
  rw [htails]
  cases rest with
  | nil =>
    refine Prod.ext ?_ (Finset.ext fun x => ?_)
    · -- the stream is at its end: its tail was empty before
      obtain ⟨hlt, hget⟩ := List.getElem?_eq_some_iff.mp htails
      have hself := List.set_getElem_self hlt
      rw [hget] at hself
      rw [List.map_set]
      exact hself.symm
    · rw [hheads, heads_set hi]
      constructor
      · exact .inl
      · rintro (h | ⟨k', rest', hnil, -⟩)
        · exact h
        · cases hnil
  | cons k' rest' =>
    refine Prod.ext ?_ (Finset.ext fun x => ?_)
    · rw [List.map_set]
      rfl
    · rw [Finset.mem_insert, hheads, heads_set hi]
      constructor
      · rintro (rfl | h)
        · exact .inr ⟨k', rest', rfl, rfl⟩
        · exact .inl h
      · rintro (h | ⟨k'', rest'', heq, rfl⟩)
        · exact .inr h
        · cases heq
          exact .inl rfl

/-- **The loop takes the rows of the merge**, one each turn. The induction is on the merge. -/
theorem paginateIndexLoop_eq {ls : List (List IndexKey)} {rows : List IndexKey}
    (h : Merged ls rows) {load : IndexKey → Option (Option T)} : ∀ {fuel limit : ℕ},
      rows.length < fuel → 0 < limit →
        paginateIndexLoop load fuel limit (ls.map List.tail, heads ls) =
          collect load limit rows := by
  induction h with
  | @done ls hnil =>
    intro fuel limit hfuel hlimit
    obtain ⟨fuel, rfl⟩ := Nat.exists_eq_succ_of_ne_zero (by omega : fuel ≠ 0)
    obtain ⟨limit, rfl⟩ := Nat.exists_eq_succ_of_ne_zero hlimit.ne'
    have hempty : heads ls = ∅ := by
      refine Finset.eq_empty_of_forall_notMem fun x hx => ?_
      obtain ⟨rest, hrest⟩ := mem_heads.mp hx
      cases hnil _ (List.mem_of_getElem? hrest)
    rw [paginateIndexLoop, hempty, Table.greatest_empty]
    rfl
  | @take ls i k rest rows hi hmax h ih =>
    intro fuel limit hfuel hlimit
    obtain ⟨fuel, rfl⟩ := Nat.exists_eq_succ_of_ne_zero (by omega : fuel ≠ 0)
    obtain ⟨limit, rfl⟩ := Nat.exists_eq_succ_of_ne_zero hlimit.ne'
    have hfuel' : rows.length < fuel := by
      rw [List.length_cons] at hfuel
      omega
    have htop : Table.greatest (heads ls) = some (toLex (k, i)) :=
      Table.greatest_eq_some (mem_heads.mpr ⟨rest, hi⟩) hmax
    rw [paginateIndexLoop, htop]
    dsimp only [ofLex_toLex]
    rw [pullStream_heads hi, collect]
    cases load k with
    | none => rfl
    | some record =>
      cases record with
      | none => exact ih hfuel' hlimit
      | some record =>
        dsimp only
        cases limit with
        | zero => cases rows <;> rfl
        | succ limit =>
          rw [if_neg (by omega), Nat.succ_sub_one, ih hfuel' (by omega)]

/-- What the streams and the heap hold when the heads of the first `n` streams were taken. -/
theorem foldl_pullStream (streams : List (List IndexKey)) : ∀ n ≤ streams.length,
    (∀ j, ((List.range n).foldl pullStream (streams, ∅)).1[j]? =
      if j < n then streams[j]?.map List.tail else streams[j]?) ∧
    ∀ x, x ∈ ((List.range n).foldl pullStream (streams, ∅)).2 ↔
      x ∈ heads streams ∧ (ofLex x).2 < n := by
  intro n
  induction n with
  | zero =>
    intro _
    refine ⟨fun j => ?_, fun x => ?_⟩
    · rw [if_neg (Nat.not_lt_zero _)]
      rfl
    · simp
  | succ n ih =>
    intro hn
    obtain ⟨hstreams, hheap⟩ := ih (by omega)
    rw [List.range_succ, List.foldl_append, List.foldl_cons, List.foldl_nil]
    generalize (List.range n).foldl pullStream (streams, ∅) = state at hstreams hheap ⊢
    obtain ⟨s, heap⟩ := state
    dsimp only at hstreams hheap
    have hat : s[n]? = some streams[n] := by
      rw [hstreams n, if_neg (Nat.lt_irrefl n)]
      exact List.getElem?_eq_getElem hn
    have hget : streams[n]? = some streams[n] := List.getElem?_eq_getElem hn
    have hlength : n < s.length := (List.getElem?_eq_some_iff.mp hat).1
    unfold pullStream
    dsimp only
    rw [hat]
    cases hl : streams[n] with
    | nil =>
      rw [hl] at hget hat
      refine ⟨fun j => ?_, fun x => ?_⟩
      · rcases Nat.lt_trichotomy j n with hj | rfl | hj
        · rw [hstreams j, if_pos hj, if_pos (by omega)]
        · rw [hat, if_pos (by omega), hget]
          rfl
        · rw [hstreams j, if_neg (by omega), if_neg (by omega)]
      · rw [hheap x]
        refine and_congr_right fun hx => ⟨fun h => by omega, fun h => ?_⟩
        refine lt_of_le_of_ne (Nat.lt_succ_iff.mp h) fun heq => ?_
        obtain ⟨rest, hrest⟩ := mem_heads.mp hx
        rw [heq, hget] at hrest
        cases hrest
    | cons k rest =>
      rw [hl] at hget
      refine ⟨fun j => ?_, fun x => ?_⟩
      · dsimp only
        rcases Nat.lt_trichotomy j n with hj | rfl | hj
        · rw [List.getElem?_set_ne (by omega), hstreams j, if_pos hj, if_pos (by omega)]
        · rw [List.getElem?_set_self hlength, if_pos (by omega), hget]
          rfl
        · rw [List.getElem?_set_ne (by omega), hstreams j, if_neg (by omega), if_neg (by omega)]
      · dsimp only
        rw [Finset.mem_insert, hheap x]
        constructor
        · rintro (rfl | ⟨hx, hlt⟩)
          · exact ⟨mem_heads.mpr ⟨rest, hget⟩, Nat.lt_succ_self n⟩
          · exact ⟨hx, by omega⟩
        · rintro ⟨hx, hlt⟩
          rcases Nat.lt_succ_iff_lt_or_eq.mp hlt with hlt | heq
          · exact .inr ⟨hx, hlt⟩
          · obtain ⟨rest', hrest'⟩ := mem_heads.mp hx
            rw [heq, hget] at hrest'
            cases hrest'
            refine .inl ?_
            rw [← heq]
            rfl

/-- **A page is a page of the merge**, for every loader and every limit. -/
theorem paginateSocialPostIndexRev_eq {streams : List (List IndexKey)} {rows : List IndexKey}
    (h : Merged streams rows) (limit : ℕ) (load : IndexKey → Option (Option T)) :
    paginateSocialPostIndexRev streams limit load = collect load limit rows := by
  unfold paginateSocialPostIndexRev
  by_cases hlimit : limit = 0
  · rw [if_pos hlimit, hlimit]
    cases rows <;> rfl
  · obtain ⟨hstreams, hheap⟩ := foldl_pullStream streams streams.length le_rfl
    have hstart : (List.range streams.length).foldl pullStream (streams, ∅) =
        (streams.map List.tail, heads streams) := by
      refine Prod.ext (List.ext_getElem? fun j => ?_) (Finset.ext fun x => ?_)
      · rw [hstreams j, List.getElem?_map]
        by_cases hj : j < streams.length
        · rw [if_pos hj]
        · rw [if_neg hj, List.getElem?_eq_none (by omega)]
          rfl
      · rw [hheap x]
        refine and_iff_left_of_imp fun hx => ?_
        obtain ⟨rest, hrest⟩ := mem_heads.mp hx
        exact (List.getElem?_eq_some_iff.mp hrest).1
    rw [if_neg hlimit, hstart]
    refine paginateIndexLoop_eq h ?_ (Nat.pos_of_ne_zero hlimit)
    rw [h.perm.length_eq, List.length_flatten]
    exact Nat.lt_succ_self _

end Loop

section Streams

/-! ## 2. The rows behind a cursor

A cursor is a position in an order that all streams share. -/

/-- Each event has one row at most. -/
def OneRow (rows : Finset IndexRow) : Prop := ∀ r ∈ rows, ∀ r' ∈ rows, r.2.2 = r'.2.2 → r = r'

local instance indexKeyTrans : IsTrans IndexKey fun k l => k ≥ l := inferInstance

local instance indexKeyAntisymm : Std.Antisymm fun k l : IndexKey => k ≥ l := inferInstance

local instance indexKeyTotal : Std.Total fun k l : IndexKey => k ≥ l := inferInstance

/-- The rows under all versions that come before the cursor, newest first. -/
def beyond (rows : Finset IndexRow) (vs : List ShortEventId) (cursor : Option IndexKey) :
    List IndexKey :=
  (((rows.filter fun r => r.1 ∈ vs).image fun r => (toLex (r.2.1, r.2.2) : IndexKey)).filter
    fun k => cursor.all (k < ·)).sort (· ≥ ·)

variable {rows : Finset IndexRow} {vs : List ShortEventId} {cursor : Option IndexKey}

theorem mem_beyond {k : IndexKey} : k ∈ beyond rows vs cursor ↔
    (∃ v ∈ vs, (v, (ofLex k).1, (ofLex k).2) ∈ rows) ∧ ∀ c, cursor = some c → k < c := by
  have hcursor : cursor.all (k < ·) = true ↔ ∀ c, cursor = some c → k < c := by
    cases cursor <;> simp
  unfold beyond
  rw [Finset.mem_sort, Finset.mem_filter, Finset.mem_image, hcursor]
  refine and_congr_left fun _ => ?_
  constructor
  · rintro ⟨⟨v, ts, id⟩, hr, rfl⟩
    obtain ⟨hmem, hv⟩ := Finset.mem_filter.mp hr
    exact ⟨v, hv, hmem⟩
  · rintro ⟨v, hv, hmem⟩
    exact ⟨_, Finset.mem_filter.mpr ⟨hmem, hv⟩, rfl⟩

theorem pairwise_beyond (rows : Finset IndexRow) (vs : List ShortEventId)
    (cursor : Option IndexKey) : (beyond rows vs cursor).Pairwise (· > ·) :=
  (Finset.sortedGT_sort _).pairwise

/-- The stream of one version. -/
theorem indexStream_eq (rows : Finset IndexRow) (v : ShortEventId) (cursor : Option IndexKey) :
    indexStream rows v cursor = beyond rows [v] cursor := by
  simp only [indexStream, beyond, List.mem_singleton]

/-- **The streams of all versions merge to the rows behind the cursor.** They have no row in common, because an
event replies to one version. -/
theorem merged_beyond (hone : OneRow rows) (hnodup : vs.Nodup) (cursor : Option IndexKey) :
    Merged (vs.map fun v => indexStream rows v cursor) (beyond rows vs cursor) := by
  obtain ⟨merged, h⟩ := exists_merged (vs.map fun v => indexStream rows v cursor)
  have hsorted : ∀ l ∈ vs.map fun v => indexStream rows v cursor, l.Pairwise (· > ·) := by
    intro l hl
    obtain ⟨v, -, rfl⟩ := List.mem_map.mp hl
    rw [indexStream_eq]
    exact pairwise_beyond rows [v] cursor
  have hdisjoint : (vs.map fun v => indexStream rows v cursor).Pairwise List.Disjoint := by
    refine List.pairwise_map.mpr (hnodup.imp fun {v w} hne k hk hk' => hne ?_)
    exact congrArg Prod.fst (hone _ (mem_indexStream hk) _ (mem_indexStream hk') rfl)
  have hmem : ∀ k, k ∈ merged ↔ k ∈ beyond rows vs cursor := by
    intro k
    rw [h.perm.mem_iff, List.mem_flatten, mem_beyond]
    constructor
    · rintro ⟨l, hl, hk⟩
      obtain ⟨v, hv, rfl⟩ := List.mem_map.mp hl
      rw [indexStream_eq, mem_beyond] at hk
      obtain ⟨⟨w, hw, hmem⟩, hlt⟩ := hk
      cases List.mem_singleton.mp hw
      exact ⟨⟨v, hv, hmem⟩, hlt⟩
    · rintro ⟨⟨v, hv, hmem⟩, hlt⟩
      refine ⟨_, List.mem_map_of_mem hv, ?_⟩
      rw [indexStream_eq, mem_beyond]
      exact ⟨⟨v, List.mem_singleton_self v, hmem⟩, hlt⟩
  rwa [Cursor.eq_of_mem_iff (fun a b hab => not_lt_of_gt hab) (h.strict hsorted hdisjoint)
    (pairwise_beyond rows vs cursor) hmem] at h

/-- **Resuming**: behind a row is what comes after it. Rows that were filtered out do not matter, as the cursor is
a row. -/
theorem beyond_resume {before after : List IndexKey} {k : IndexKey}
    (hsplit : beyond rows vs cursor = before ++ k :: after) : beyond rows vs (some k) = after := by
  have hk : k ∈ beyond rows vs cursor := by
    rw [hsplit]
    exact List.mem_append_right _ List.mem_cons_self
  refine Cursor.eq_of_beyond (r := (· > ·)) (fun a b hab => not_lt_of_gt hab)
    (pairwise_beyond rows vs cursor) (pairwise_beyond rows vs (some k)) hsplit fun x => ?_
  rw [mem_beyond, mem_beyond]
  constructor
  · rintro ⟨hmem, hlt⟩
    exact ⟨⟨hmem, fun c hc => (hlt k rfl).trans ((mem_beyond.mp hk).2 c hc)⟩, hlt k rfl⟩
  · rintro ⟨⟨hmem, -⟩, hlt⟩
    refine ⟨hmem, fun c hc => ?_⟩
    cases hc
    exact hlt

/-- As many rows as there are under the versions. -/
theorem length_beyond (hone : OneRow rows) (vs : List ShortEventId) :
    (beyond rows vs none).length = (rows.filter fun r => r.1 ∈ vs).card := by
  unfold beyond
  rw [Finset.length_sort, Finset.filter_true_of_mem]
  swap
  · exact fun _ _ => Option.all_none
  refine Finset.card_image_of_injOn fun r hr r' hr' heq => ?_
  exact hone r (Finset.mem_filter.mp hr).1 r' (Finset.mem_filter.mp hr').1
    (congrArg (fun k : IndexKey => (ofLex k).2) heq)

/-- The rows under different versions are different rows. -/
theorem sum_card_eq (rows : Finset IndexRow) (hnodup : vs.Nodup) :
    (vs.map fun v => (rows.filter fun r => r.1 = v).card).sum =
      (rows.filter fun r => r.1 ∈ vs).card := by
  rw [← List.sum_toFinset _ hnodup, Finset.card_eq_sum_card_fiberwise (f := Prod.fst)
    (t := vs.toFinset) fun r hr => List.mem_toFinset.mpr (Finset.mem_filter.mp hr).2]
  refine Finset.sum_congr rfl fun v hv => congrArg Finset.card ?_
  rw [Finset.filter_filter]
  refine Finset.filter_congr fun r _ => ⟨fun h => ⟨?_, h⟩, fun h => h.2⟩
  rw [h]
  exact List.mem_toFinset.mp hv

/-- A saturating sum. -/
theorem foldl_saturating (f : ShortEventId → ℕ) : ∀ (vs : List ShortEventId) (n : ℕ), n ≤ u64Max →
    vs.foldl (fun n v => min u64Max (n + f v)) n = min u64Max (n + (vs.map f).sum)
  | [], n, h => by
    rw [List.foldl_nil, List.map_nil, List.sum_nil, Nat.add_zero, min_eq_right h]
  | v :: vs, n, h => by
    rw [List.foldl_cons, List.map_cons, List.sum_cons,
      foldl_saturating f vs _ (min_le_left _ _)]
    omega

end Streams

section Walk

/-! ## 3. The versions of a post

The walk over the edits ends because ranks fall along it, and it collects each version once. -/

variable {rows : LineageRows} {a : RostraId}

/-- Along falling ranks no version comes twice. -/
theorem versionsLoop_nodup (rank : ShortEventId → ℕ)
    (hrank : ∀ u v, (a, u, v) ∈ rows → rank v < rank u) :
    ∀ {fuel : ℕ} {id : ShortEventId} {vs : List ShortEventId},
      versionsLoop rows a fuel id = some vs → vs.Nodup ∧ ∀ v ∈ vs, rank v ≤ rank id
  | 0, _, _, h => by cases h
  | fuel + 1, id, vs, h => by
    unfold versionsLoop at h
    split at h
    · cases h
      exact ⟨List.nodup_singleton id, fun v hv => (congrArg rank (List.mem_singleton.mp hv)).le⟩
    · next next hnext =>
      obtain ⟨vs', hvs', rfl⟩ := Option.map_eq_some_iff.mp h
      obtain ⟨hnodup, hle⟩ := versionsLoop_nodup rank hrank hvs'
      have hlt := hrank _ _ (firstLineageRow_mem hnext)
      refine ⟨List.nodup_cons.mpr ⟨fun hmem => ?_, hnodup⟩, fun v hv => ?_⟩
      · exact absurd (hle id hmem) (Nat.not_le.mpr hlt)
      · rcases List.mem_cons.mp hv with rfl | hv
        · exact le_rfl
        · exact (hle v hv).trans hlt.le

/-- The walk leaves no row out, if an edit replaces one post only. -/
theorem versionsLoop_closed (huniq : ∀ u v w, (a, u, v) ∈ rows → (a, u, w) ∈ rows → v = w) :
    ∀ {fuel : ℕ} {id : ShortEventId} {vs : List ShortEventId},
      versionsLoop rows a fuel id = some vs →
        id ∈ vs ∧ ∀ u ∈ vs, ∀ v, (a, u, v) ∈ rows → v ∈ vs
  | 0, _, _, h => by cases h
  | fuel + 1, id, vs, h => by
    unfold versionsLoop at h
    split at h
    · next hnone =>
      cases h
      refine ⟨List.mem_singleton_self id, fun u hu v hrow => ?_⟩
      cases List.mem_singleton.mp hu
      have hempty := Table.least_none hnone
      have hmem : v ∈ (rows.filter fun r => r.1 = a ∧ r.2.1 = id).image fun r => r.2.2 :=
        Finset.mem_image.mpr ⟨(a, id, v), Finset.mem_filter.mpr ⟨hrow, rfl, rfl⟩, rfl⟩
      rw [hempty] at hmem
      cases hmem
    · next next hnext =>
      obtain ⟨vs', hvs', rfl⟩ := Option.map_eq_some_iff.mp h
      obtain ⟨hstart, hclosed⟩ := versionsLoop_closed huniq hvs'
      refine ⟨List.mem_cons_self, fun u hu v hrow => List.mem_cons_of_mem _ ?_⟩
      rcases List.mem_cons.mp hu with rfl | hu
      · rw [huniq _ _ _ hrow (firstLineageRow_mem hnext)]
        exact hstart
      · exact hclosed u hu v hrow

end Walk

section Listing

variable [Primitives]

/-! ## 4. Comments

From rows to records. A row whose record could not be read would leave a gap in a page, and there is none. -/

/-- Where a record stands in the listing. -/
def SocialPostView.key (r : SocialPostView) : IndexKey := toLex (r.ts, r.eventId)

variable {env : Env} {D : Set VerifiedEvent} {db : Database}

omit [Primitives] in
/-- Every event has one row of a kind. -/
theorem oneRow_of_contributed {s : ShortEventId → Option PostSource} {present : SocialPost → Bool}
    {rows : Finset IndexRow} (h : Index.Contributed s (indexRow present) rows) : OneRow rows := by
  intro r hr r' hr' heq
  obtain ⟨id, x, hx, hrow⟩ := (h r).mp hr
  obtain ⟨id', x', hx', hrow'⟩ := (h r').mp hr'
  have hid : id = id' := by
    obtain ⟨-, reply, -, rfl⟩ := indexRow_eq_some.mp hrow
    obtain ⟨-, reply', -, rfl⟩ := indexRow_eq_some.mp hrow'
    exact heq
  subst hid
  rw [hx] at hx'
  cases hx'
  exact Option.some.inj (hrow.symm.trans hrow')

/-- **A listed row has a record**: the index holds rows of shown posts only, and a post is shown with
its content. -/
theorem record_of_row {present : SocialPost → Bool} {rows : Finset IndexRow}
    (h : Index.Contributed (shown db.ev) (indexRow present) rows)
    (hends : ∀ a id, (socialPostVersionsTx db.proj a id).isSome) {v : ShortEventId} {k : IndexKey}
    (hrow : (v, (ofLex k).1, (ofLex k).2) ∈ rows) :
    ∃ r, socialPostRecordByIdTx db (ofLex k).2 (ofLex k).1 = some (some r) ∧ r.key = k := by
  obtain ⟨id, x, hx, hr⟩ := (h _).mp hrow
  obtain ⟨-, reply, -, heq⟩ := indexRow_eq_some.mp hr
  obtain ⟨c, hc, hsource⟩ := Option.bind_eq_some_iff.mp hx
  obtain ⟨post, hpost, rfl⟩ := Option.map_eq_some_iff.mp hsource
  obtain ⟨e, b, he, hcls, -, hb, rfl⟩ := processedContent_eq_some.mp hc
  have hid : (ofLex k).2 = id := congrArg (fun r : IndexRow => r.2.2) heq
  obtain ⟨vs, hvs⟩ := Option.isSome_iff_exists.mp (hends e.author id)
  have hread : Primitives.cborSocialPost b = some post := socialPost?_of_projected hpost
  have hstate : (db.ev.eventsContentState.get id).isSome = false := by
    rw [classOf_eq_current.mp hcls]
    rfl
  unfold socialPostRecordByIdTx socialPostReplyCountTx
  rw [hid, he]
  dsimp only
  rw [hstate, if_neg Bool.false_ne_true, hb, Option.bind_some, hread]
  dsimp only
  rw [hvs]
  refine ⟨_, rfl, ?_⟩
  rw [SocialPostView.key, ← hid]
  rfl

theorem socialPostRecordByIdTx_key {k : IndexKey} {r : SocialPostView}
    (h : socialPostRecordByIdTx db (ofLex k).2 (ofLex k).1 = some (some r)) : r.key = k := by
  unfold socialPostRecordByIdTx at h
  split at h
  · cases h
  split at h
  · cases h
  split at h
  · cases h
  · obtain ⟨n, -, hr⟩ := Option.map_eq_some_iff.mp h
    cases hr
    rfl

/-- A page of a listing is a page of the rows behind the cursor. -/
theorem paginateVersionsRev_eq {rows : Finset IndexRow} (hone : OneRow rows) {postId : ShortEventId}
    {vs : List ShortEventId} (hvs : listedVersions db postId = some vs) (hnodup : vs.Nodup)
    (cursor : Option IndexKey) (limit : ℕ) :
    paginateVersionsRev db rows postId cursor limit =
      (collect (fun k => socialPostRecordByIdTx db (ofLex k).2 (ofLex k).1) limit
        (beyond rows vs cursor)).map fun records => (records, records.getLast?.map (·.key)) := by
  unfold paginateVersionsRev
  rw [hvs]
  refine (Option.bind_some ..).trans ?_
  rw [paginateSocialPostIndexRev_eq (merged_beyond hone hnodup cursor)]
  rw [Option.map_eq_bind]
  rfl

omit [Primitives] in
/-- The reported number of replies is the number of rows, as far as a `u64` goes. -/
theorem socialPostReplyCountTx_eq (ht : Index.Tallied Prod.fst db.proj.socialPostsReplies
    (socialPart db.proj).replyCount) {a : RostraId} {id : ShortEventId} {vs : List ShortEventId}
    (hvs : socialPostVersionsTx db.proj a id = some vs) (hnodup : vs.Nodup) :
    socialPostReplyCountTx db.proj a id =
      some (min u64Max (db.proj.socialPostsReplies.filter fun r => r.1 ∈ vs).card) := by
  have hcount : (fun v => ((db.proj.socialPosts.get v).getD {}).replyCount) =
      fun v => (db.proj.socialPostsReplies.filter fun r => r.1 = v).card := funext ht
  unfold socialPostReplyCountTx
  rw [hvs, Option.map_some, foldl_saturating _ vs 0 (Nat.zero_le _), Nat.zero_add, hcount,
    sum_card_eq _ hnodup]

/-- Lineage rows lead to what the header of the edit names: one post, of lower rank. -/
theorem EditsTraced.parent (h : EditsTraced D db.proj) {a : RostraId} {new old : ShortEventId}
    (hrow : (a, new, old) ∈ db.proj.socialPostsReplaces) :
    ∃ v ∈ D, v.id = new ∧ v.event.parentAux = some old := by
  obtain ⟨c, hc, -, hid, hold⟩ := h a new old hrow
  exact ⟨c.event, hc, hid, (lineageOf_eq_some.mp hold).parent⟩

/-- The walk ends, meets each version once, and leaves no row out. -/
theorem listedVersions_spec (hcf : CollisionFree D) (rank : ShortEventId → ℕ)
    (hrank : ∀ v ∈ D, ∀ old, v.event.parentAux = some old → rank old < rank v.id)
    (hedits : EditsTraced D db.proj) (a : RostraId) (id : ShortEventId) :
    ∃ vs, socialPostVersionsTx db.proj a id = some vs ∧ vs.Nodup ∧ id ∈ vs ∧
      ∀ u ∈ vs, ∀ v, (a, u, v) ∈ db.proj.socialPostsReplaces → v ∈ vs := by
  have hfall : ∀ u v, (a, u, v) ∈ db.proj.socialPostsReplaces → rank v < rank u := by
    intro u v hrow
    obtain ⟨w, hw, rfl, hparent⟩ := hedits.parent hrow
    exact hrank w hw v hparent
  have huniq : ∀ u v w, (a, u, v) ∈ db.proj.socialPostsReplaces →
      (a, u, w) ∈ db.proj.socialPostsReplaces → v = w := by
    intro u v w hv hw
    obtain ⟨x, hx, rfl, hparent⟩ := hedits.parent hv
    obtain ⟨y, hy, hid, hparent'⟩ := hedits.parent hw
    rw [hcf hy hx hid, hparent] at hparent'
    exact Option.some.inj hparent'
  obtain ⟨vs, hvs⟩ := Option.isSome_iff_exists.mp (versionsLoop_isSome rank hfall _ id
    (Nat.lt_succ_of_le (Finset.card_filter_le _ _)))
  exact ⟨vs, hvs, (versionsLoop_nodup rank hfall hvs).1, versionsLoop_closed huniq hvs⟩

/-- **All replies to a post**, and what the listing and the counter say about them. -/
structure AllReplies (db : Database) (postId : ShortEventId) (vs : List ShortEventId)
    (replies : List SocialPostView) : Prop where
  /-- The versions that are gathered are the whole lineage below the post. -/
  lineage : postId ∈ vs ∧ ∀ e, db.ev.events.get postId = some e →
    ∀ u ∈ vs, ∀ v, (e.author, u, v) ∈ db.proj.socialPostsReplaces → v ∈ vs
  /-- Newest first, and no row twice. -/
  descending : (replies.map (·.key)).Pairwise (· > ·)
  /-- Every row of every version, and no other. -/
  rows : ∀ k : IndexKey, k ∈ replies.map (·.key) ↔
    ∃ v ∈ vs, (v, (ofLex k).1, (ofLex k).2) ∈ db.proj.socialPostsReplies
  number : replies.length = (db.proj.socialPostsReplies.filter fun r => r.1 ∈ vs).card
  loaded : ∀ r ∈ replies, socialPostRecordByIdTx db r.eventId r.ts = some (some r)
  /-- Following the cursors, with pages of any sizes, ends with exactly these. -/
  pages : ∀ limits : List ℕ, (∀ n ∈ limits, 1 ≤ n) → replies.length < limits.length →
    follow (paginateSocialPostCommentsRev db postId) limits none = some (some replies)
  /-- The count that the post reports; it is a `u64` and saturates. -/
  counted : ∀ e, db.ev.events.get postId = some e →
    socialPostReplyCountTx db.proj e.author postId = some (min u64Max replies.length)

theorem allReplies (hcf : CollisionFree D) (rank : ShortEventId → ℕ)
    (hrank : ∀ v ∈ D, ∀ old, v.event.parentAux = some old → rank old < rank v.id)
    (hedits : EditsTraced D db.proj) (hj : Projected env D db) (postId : ShortEventId) :
    ∃ vs replies, listedVersions db postId = some vs ∧ AllReplies db postId vs replies := by
  have hwalk := listedVersions_spec hcf rank hrank hedits
  have hone : OneRow db.proj.socialPostsReplies := oneRow_of_contributed hj.tables.replies
  obtain ⟨vs, hvs, hnodup, hlineage, hauthor⟩ : ∃ vs, listedVersions db postId = some vs ∧ vs.Nodup ∧
      (postId ∈ vs ∧ ∀ e, db.ev.events.get postId = some e →
        ∀ u ∈ vs, ∀ v, (e.author, u, v) ∈ db.proj.socialPostsReplaces → v ∈ vs) ∧
      ∀ e, db.ev.events.get postId = some e →
        socialPostVersionsTx db.proj e.author postId = some vs := by
    unfold listedVersions
    cases he : db.ev.events.get postId with
    | none =>
      refine ⟨[postId], rfl, List.nodup_singleton _, ⟨List.mem_singleton_self _, fun e h => ?_⟩,
        fun e h => ?_⟩
      · cases h
      · cases h
    | some e =>
      obtain ⟨vs, hvs, hnodup, hmem, hclosed⟩ := hwalk e.author postId
      refine ⟨vs, hvs, hnodup, ⟨hmem, fun e' h => ?_⟩, fun e' h => ?_⟩
      · cases h
        exact hclosed
      · cases h
        exact hvs
  have hrecord : ∀ k ∈ beyond db.proj.socialPostsReplies vs none, ∃ r,
      socialPostRecordByIdTx db (ofLex k).2 (ofLex k).1 = some (some r) ∧ r.key = k := by
    intro k hk
    obtain ⟨v, -, hrow⟩ := (mem_beyond.mp hk).1
    refine record_of_row hj.tables.replies (fun a id => ?_) hrow
    obtain ⟨vs', hvs', -⟩ := hwalk a id
    exact Option.isSome_of_eq_some hvs'
  obtain ⟨replies, hkept, hkeys, hloaded⟩ := exists_kept _ hrecord
  have hnumber : replies.length =
      (db.proj.socialPostsReplies.filter fun r => r.1 ∈ vs).card := by
    rw [← length_beyond hone, ← hkeys, List.length_map]
  refine ⟨vs, replies, hvs, hlineage, ?_, fun k => ?_, hnumber, hloaded, fun limits hlimits hlength => ?_,
    fun e he => ?_⟩
  · rw [hkeys]
    exact pairwise_beyond _ vs none
  · rw [hkeys, mem_beyond]
    exact and_iff_left fun c hc => by cases hc
  · refine follow_eq (beyond db.proj.socialPostsReplies vs)
      (fun c limit => paginateVersionsRev_eq hone hvs hnodup c limit) (fun k r hr => ?_)
      (fun c before k after => beyond_resume) limits none hkept hlimits hlength
    exact socialPostRecordByIdTx_key hr
  · rw [socialPostReplyCountTx_eq hj.tables.replyCount (hauthor e he) hnodup, hnumber]

end Listing

section Main

variable [Primitives]

/-- **Comment paging is complete.**  In every reached state every post has one list of replies, which
is what the cursors lead through, whatever the page sizes, and what its counter says.  The merge
behind it loses nothing and repeats nothing, whatever the loader skips.

The rank says that ids are hashes: a header names only what was there before it. -/
theorem comments_complete (env : Env) {D : Set VerifiedEvent} (hcf : CollisionFree D)
    (hinj : Function.Injective blake3) (hdec : EmptyUnreadable) (hlen : SameLengths D)
    (rank : ShortEventId → ℕ)
    (hrank : ∀ v ∈ D, ∀ old, v.event.parentAux = some old → rank old < rank v.id) (ops : List Op)
    (hD : DeliveredFrom D ops) :
    (∀ postId, ∃ vs replies, listedVersions (reached env ops) postId = some vs ∧
      AllReplies (reached env ops) postId vs replies) ∧
    ∀ (T : Type) (streams : List (List IndexKey)), (∀ l ∈ streams, l.Pairwise (· > ·)) →
      streams.Pairwise List.Disjoint →
        ∃ rows : List IndexKey, rows.Perm streams.flatten ∧ rows.Pairwise (· > ·) ∧
          ∀ limit (load : IndexKey → Option (Option T)),
            paginateSocialPostIndexRev streams limit load = collect load limit rows := by
  refine ⟨fun postId => ?_, fun T streams hsorted hdisjoint => ?_⟩
  · obtain ⟨-, hedits, -⟩ := reached_rowsTraced env hcf ops hD
    obtain ⟨-, hj⟩ := reached_projected env hcf hinj hdec hlen.unambiguous ops hD
    exact allReplies hcf rank hrank hedits hj postId
  · obtain ⟨rows, h⟩ := exists_merged streams
    exact ⟨rows, h.perm, h.strict hsorted hdisjoint,
      fun limit load => paginateSocialPostIndexRev_eq h limit load⟩

end Main

section Sample

attribute [local instance] Primitives.reference

/-- The reply to the sample post is listed under its edit, wherever pages are cut. -/
theorem comments_complete_sampleForeignRun :
    let db := reached sampleEnv sampleForeignRun
    (follow (paginateSocialPostCommentsRev db 3) [1, 5] none).map (Option.map (List.map (·.key))) =
        some (some [toLex (2, 2)]) ∧
      ∃ vs replies, listedVersions db 3 = some vs ∧ AllReplies db 3 vs replies := by
  have hlengths : ∀ v ∈ sampleForeignRun.flatMap Op.delivered,
      ∀ w ∈ sampleForeignRun.flatMap Op.delivered, v.event.contentHash = w.event.contentHash →
        v.event.contentLen = w.event.contentLen := by decide
  have hranks : ∀ v ∈ sampleForeignRun.flatMap Op.delivered, ∀ old ∈ v.event.parentAux,
      old < v.id := by decide
  refine ⟨by decide +kernel, ?_⟩
  exact (comments_complete sampleEnv (collisionFree_envelopesOf (by decide))
    Primitives.reference_injective rfl (fun v hv w hw => hlengths v hv w hw) id
    (fun v hv old hold => hranks v hv old hold) _ (deliveredFrom_envelopesOf _)).1 3

end Sample

end Rostra.Db
