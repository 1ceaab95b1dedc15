/-
# Older payloads are requested first

The priority of an envelope is fixed when it is obtained: its effective timestamp is the least of its own and
those of the children through which it was reached until then, and its depth is the length of the longest chain
of such children.  A child that comes later changes the row of the parent and does not move its entry.

* Section 1: the position of a row is the one that the children so far give it (`Ranked`).
* Section 2: payload phases come in the order of the priorities (`Ordered`).
* Section 3: an ancestor that was reached through a chain of children comes before each of them, and a graph in
  which a late child comes before its parent.

The documentation of the code does not promise more: an event that is reached again through a child that comes late
keeps the entry it has.
-/
import Mathlib.Order.Bounds.Basic
import Mathlib.Logic.Relation
import Rostra.Proofs.Basic
import Rostra.Proofs.DownloadEvents

namespace Rostra.DownloadEvents

open Rostra Rostra.Db PairedQueue

section Order

variable [Primitives] {env : Env} {author : RostraId} {s s' : Download} {turn : Turn} {trace shown : List Label}

/-! ## 1. The position of a row

The row of an envelope that was not looked for is raised by every child that reaches it. -/

section Reached

variable {id : ShortEventId}

@[simp] theorem reachedThrough_found (id' : ShortEventId) (v : VerifiedEvent) (timestamp depth : ℕ) :
    reachedThrough id (trace ++ [.found id' v timestamp depth]) = reachedThrough id trace := by
  unfold reachedThrough
  rw [List.foldl_append]
  rfl

@[simp] theorem reachedThrough_payload (id' : ShortEventId) (request : Option VerifiedEvent) :
    reachedThrough id (trace ++ [.payload id' request]) = reachedThrough id trace := by
  unfold reachedThrough
  rw [List.foldl_append]
  rfl

theorem reachedThrough_missed (id' : ShortEventId) :
    reachedThrough id (trace ++ [.missed id']) = if id' = id then [] else reachedThrough id trace := by
  unfold reachedThrough
  rw [List.foldl_append]
  rfl

theorem reachedThrough_expanded (child : ShortEventId) (v : VerifiedEvent) :
    reachedThrough id (trace ++ [.expanded child v]) =
      if id ∈ allParents v.event then reachedThrough id trace ++ [child] else reachedThrough id trace := by
  unfold reachedThrough
  rw [List.foldl_append]
  rfl

end Reached

/-- The effective timestamps of the children through which an envelope was reached. -/
def childTimestamps (id : ShortEventId) (trace : List Label) : Set ℕ :=
  { timestamp | ∃ c ∈ reachedThrough id trace, ∃ v depth, .found c v timestamp depth ∈ trace }

/-- One more than their depths. -/
def childDepths (id : ShortEventId) (trace : List Label) : Set ℕ :=
  { n | ∃ c ∈ reachedThrough id trace, ∃ v timestamp depth, .found c v timestamp depth ∈ trace ∧ n = depth + 1 }

/-- Nothing that was shown changes the children or their priorities. -/
theorem child_frame {id : ShortEventId} {label : Label}
    (hreached : reachedThrough id (trace ++ [label]) = reachedThrough id trace)
    (hlabel : ∀ c ∈ reachedThrough id trace, label.found? ≠ some c) :
    childTimestamps id (trace ++ [label]) = childTimestamps id trace ∧
      childDepths id (trace ++ [label]) = childDepths id trace := by
  have hfound : ∀ c ∈ reachedThrough id trace, ∀ v timestamp depth,
      .found c v timestamp depth ∈ trace ++ [label] ↔ .found c v timestamp depth ∈ trace := by
    intro c hc v timestamp depth
    rw [List.mem_append, List.mem_singleton, or_iff_left]
    rintro rfl
    exact hlabel c hc rfl
  constructor
  · ext timestamp
    unfold childTimestamps
    rw [Set.mem_ofPred_eq, Set.mem_ofPred_eq, hreached]
    exact exists_congr fun c => and_congr_right fun hc => exists_congr fun v => exists_congr fun depth =>
      hfound c hc v timestamp depth
  · ext n
    unfold childDepths
    rw [Set.mem_ofPred_eq, Set.mem_ofPred_eq, hreached]
    exact exists_congr fun c => and_congr_right fun hc => exists_congr fun v => exists_congr fun timestamp =>
      exists_congr fun depth => and_congr_left fun _ => hfound c hc v timestamp depth

/-- One more child. -/
theorem child_expanded (ht : Told trace) {id c : ShortEventId} {v w : VerifiedEvent} {timestamp depth : ℕ}
    (hfound : .found c w timestamp depth ∈ trace) (hparent : id ∈ allParents v.event) :
    childTimestamps id (trace ++ [.expanded c v]) = insert timestamp (childTimestamps id trace) ∧
      childDepths id (trace ++ [.expanded c v]) = insert (depth + 1) (childDepths id trace) := by
  have hreached : ∀ c', c' ∈ reachedThrough id (trace ++ [.expanded c v]) ↔
      c' = c ∨ c' ∈ reachedThrough id trace := by
    intro c'
    rw [reachedThrough_expanded, if_pos hparent, List.mem_append, List.mem_singleton, or_comm]
  have hmem : ∀ c' v' timestamp' depth', .found c' v' timestamp' depth' ∈ trace ++ [.expanded c v] ↔
      .found c' v' timestamp' depth' ∈ trace := by
    intro c' v' timestamp' depth'
    rw [List.mem_append, List.mem_singleton, or_iff_left]
    exact fun heq => by cases heq
  constructor
  · ext timestamp'
    unfold childTimestamps
    simp only [Set.mem_ofPred_eq, Set.mem_insert_iff, hreached, hmem]
    constructor
    · rintro ⟨c', rfl | hc', v', depth', hv'⟩
      · exact .inl (ht.found_unique hv' hfound).1
      · exact .inr ⟨c', hc', v', depth', hv'⟩
    · rintro (rfl | ⟨c', hc', v', depth', hv'⟩)
      · exact ⟨c, .inl rfl, w, depth, hfound⟩
      · exact ⟨c', .inr hc', v', depth', hv'⟩
  · ext n
    unfold childDepths
    simp only [Set.mem_ofPred_eq, Set.mem_insert_iff, hreached, hmem]
    constructor
    · rintro ⟨c', rfl | hc', v', timestamp', depth', hv', rfl⟩
      · exact .inl (by rw [(ht.found_unique hv' hfound).2])
      · exact .inr ⟨c', hc', v', timestamp', depth', hv', rfl⟩
    · rintro (rfl | ⟨c', hc', v', timestamp', depth', hv', rfl⟩)
      · exact ⟨c, .inl rfl, w, timestamp, depth, hfound, rfl⟩
      · exact ⟨c', .inr hc', v', timestamp', depth', hv', rfl⟩

/-- **The position that the children so far give a row**: the least of their timestamps, and the greatest of their
depths with one added. -/
structure Placed (trace : List Label) (id : ShortEventId) (item : QueueItemData) : Prop where
  timestamp : IsLeast (insert u64Max (childTimestamps id trace)) item.childTimestamp
  depth : IsGreatest (insert 0 (childDepths id trace)) item.depth

theorem Placed.timestamp_le {id : ShortEventId} {item : QueueItemData} (h : Placed trace id item) :
    item.childTimestamp ≤ u64Max := h.timestamp.2 (Set.mem_insert _ _)

/-- An envelope that was not looked for has the position that its children give it. -/
structure Ranked (s : Download) (trace : List Label) : Prop where
  placed : ∀ {id item}, s.inQueue.get id = some item → item.processState = none → Placed trace id item
  absent : ∀ {id}, s.inQueue.get id = none → id ∉ foundIds trace → reachedThrough id trace = []
  children : ∀ id, ∀ c ∈ reachedThrough id trace, c ∈ foundIds trace

theorem Ranked.start (head : ShortEventId) (db : Database) : Ranked (.start head db) [] where
  placed := by
    intro id item hget _
    have hempty : childTimestamps id [] = ∅ ∧ childDepths id [] = ∅ :=
      ⟨Set.eq_empty_of_forall_notMem fun _ ⟨_, hc, _⟩ => List.not_mem_nil hc,
        Set.eq_empty_of_forall_notMem fun _ ⟨_, hc, _⟩ => List.not_mem_nil hc⟩
    by_cases hid : id = head
    · subst hid
      unfold Download.start at hget
      rw [Table.get_insert_self] at hget
      obtain rfl := Option.some.inj hget
      refine ⟨?_, ?_⟩
      · rw [hempty.1, insert_empty_eq]
        exact isLeast_singleton
      · rw [hempty.2, insert_empty_eq]
        exact isGreatest_singleton
    · unfold Download.start at hget
      rw [Table.get_insert_of_ne _ _ hid, Table.get_empty] at hget
      cases hget
  absent _ _ := rfl
  children _ _ hc := absurd hc List.not_mem_nil

/-- A label that moves no position. -/
theorem Ranked.placed_frame (h : Ranked s trace) {label : Label} {id : ShortEventId} {item : QueueItemData}
    (hplaced : Placed trace id item)
    (hreached : reachedThrough id (trace ++ [label]) = reachedThrough id trace)
    (hlabel : ∀ c, label.found? = some c → c ∉ foundIds trace) : Placed (trace ++ [label]) id item := by
  obtain ⟨htimestamps, hdepths⟩ := child_frame hreached fun c hc hfound => hlabel c hfound (h.children id c hc)
  exact ⟨htimestamps ▸ hplaced.timestamp, hdepths ▸ hplaced.depth⟩

theorem Ranked.payload (h : Ranked s trace) (hlaw : Law s trace) {timestamp depth : ℕ} {id : ShortEventId}
    {item : QueueItemData} (hnext : Next s (keyed timestamp depth) id item) (request : Option VerifiedEvent)
    (hindex : s'.inQueue = (s.pop (keyed timestamp depth) id).inQueue) :
    Ranked s' (trace ++ [.payload id request]) := by
  have hfound : foundIds (trace ++ [.payload id request]) = foundIds trace := by simp
  refine ⟨?_, ?_, ?_⟩
  · intro id' item' hget hstate
    rw [hindex] at hget
    exact h.placed_frame (h.placed (Table.get_of_remove hget) hstate) (reachedThrough_payload ..)
      fun _ hcon => by cases hcon
  · intro id' hget hnot
    rw [hindex] at hget
    rw [hfound] at hnot
    rw [reachedThrough_payload]
    by_cases hid : id' = id
    · obtain ⟨⟨v, hv⟩, -⟩ := hlaw.waiting.mp hnext.mem
      exact absurd (mem_foundIds.mpr ⟨v, timestamp, depth, hid ▸ hv⟩) hnot
    · exact h.absent ((Table.get_remove_of_ne _ hid).symm.trans hget) hnot
  · intro id' c hc
    rw [reachedThrough_payload] at hc
    rw [hfound]
    exact h.children id' c hc

theorem Ranked.missed (h : Ranked s trace) (id : ShortEventId) (db : Database) :
    Ranked ((s.pop unkeyed id).onto db) (trace ++ [.missed id]) := by
  have hfound : foundIds (trace ++ [.missed id]) = foundIds trace := by simp
  refine ⟨?_, ?_, ?_⟩
  · intro id' item' hget hstate
    have hid : id ≠ id' := by
      rintro rfl
      exact absurd ((Table.get_remove_self ..).symm.trans hget) (by simp)
    refine h.placed_frame (h.placed (Table.get_of_remove hget) hstate) ?_ fun _ hcon => by cases hcon
    rw [reachedThrough_missed, if_neg hid]
  · intro id' hget hnot
    rw [hfound] at hnot
    rw [reachedThrough_missed]
    split
    · rfl
    · next hid => exact h.absent ((Table.get_remove_of_ne _ (Ne.symm hid)).symm.trans hget) hnot
  · intro id' c hc
    rw [reachedThrough_missed] at hc
    split at hc
    · exact absurd hc List.not_mem_nil
    · rw [hfound]
      exact h.children id' c hc

theorem Ranked.file (h : Ranked s trace) (hlaw : Law s trace) {id : ShortEventId} {item : QueueItemData}
    (hnext : Next s unkeyed id item) (db : Database) (o : Obtained) :
    Ranked (((s.pop unkeyed id).onto db).file id item o)
      (trace ++ [.found id o.event (min item.childTimestamp o.event.event.timestamp) item.depth]) := by
  have hfound : foundIds (trace ++ [.found id o.event (min item.childTimestamp o.event.event.timestamp) item.depth]) =
      foundIds trace ++ [id] := by simp
  refine ⟨?_, ?_, ?_⟩
  · intro id' item' hget hstate
    unfold Download.file at hget
    by_cases hid : id' = id
    · rw [hid, Table.get_insert_self] at hget
      obtain rfl := Option.some.inj hget
      cases hstate
    · rw [Table.get_insert_of_ne _ _ hid] at hget
      refine h.placed_frame (h.placed (Table.get_of_remove hget) hstate) (reachedThrough_found ..) ?_
      rintro c hc
      obtain rfl := Option.some.inj hc
      exact hlaw.unfound hnext.mem
  · intro id' hget hnot
    rw [hfound, List.mem_append, List.mem_singleton, not_or] at hnot
    unfold Download.file at hget
    rw [Table.get_insert_of_ne _ _ hnot.2] at hget
    rw [reachedThrough_found]
    exact h.absent ((Table.get_remove_of_ne _ hnot.2).symm.trans hget) hnot.1
  · intro id' c hc
    rw [reachedThrough_found] at hc
    rw [hfound]
    exact List.mem_append_left _ (h.children id' c hc)

/-- An envelope that was obtained keeps its row until discovery has finished. -/
theorem Law.row_of_found (h : Law s trace) (hnone : payloadIds trace = []) {id : ShortEventId}
    (hfound : id ∈ foundIds trace) : ∃ item, s.inQueue.get id = some item := by
  obtain ⟨v, timestamp, depth, hv⟩ := mem_foundIds.mp hfound
  have hmem := h.waiting.mpr ⟨⟨v, hv⟩, by rw [hnone]; exact List.not_mem_nil⟩
  obtain ⟨item, hitem, -⟩ := h.paired.row hmem
  exact ⟨item, hitem⟩

/-- **A parent is moved** by the child that reaches it, if it was not obtained yet. -/
theorem Placed.reached (h : Ranked s trace) (ht : Told trace) (hlaw : Law s trace) (hnone : payloadIds trace = [])
    {id c : ShortEventId} {v w : VerifiedEvent} {timestamp depth : ℕ} {item : QueueItemData}
    (hfound : .found c w timestamp depth ∈ trace) (hle : timestamp ≤ u64Max) (hparent : id ∈ allParents v.event)
    (hrow : reachedRow timestamp (depth + 1) (s.inQueue.get id) = item) (hstate : item.processState = none) :
    Placed (trace ++ [.expanded c v]) id item := by
  obtain ⟨htimestamps, hdepths⟩ := child_expanded ht hfound hparent
  subst hrow
  cases hget : s.inQueue.get id with
  | some existing =>
    rw [hget] at hstate
    have hplaced := h.placed hget hstate
    refine ⟨?_, ?_⟩
    · rw [htimestamps, Set.insert_comm]
      have hleast := hplaced.timestamp.insert timestamp
      rwa [min_comm] at hleast
    · rw [hdepths, Set.insert_comm]
      have hgreatest := hplaced.depth.insert (depth + 1)
      rwa [max_comm] at hgreatest
  | none =>
    have hnew : reachedThrough id trace = [] := by
      refine h.absent hget fun hcon => ?_
      obtain ⟨item, hitem⟩ := hlaw.row_of_found hnone hcon
      rw [hget] at hitem
      cases hitem
    have hempty : childTimestamps id trace = ∅ ∧ childDepths id trace = ∅ := by
      unfold childTimestamps childDepths
      rw [hnew]
      exact ⟨Set.eq_empty_of_forall_notMem fun _ ⟨_, hc, _⟩ => List.not_mem_nil hc,
        Set.eq_empty_of_forall_notMem fun _ ⟨_, hc, _⟩ => List.not_mem_nil hc⟩
    refine ⟨?_, ?_⟩
    · rw [htimestamps, hempty.1, insert_empty_eq]
      have hleast := (isLeast_singleton (a := timestamp)).insert u64Max
      rwa [min_eq_right hle] at hleast
    · rw [hdepths, hempty.2, insert_empty_eq]
      have hgreatest := (isGreatest_singleton (a := depth + 1)).insert 0
      rwa [max_eq_right (Nat.zero_le _)] at hgreatest

theorem Ranked.expand (h : Ranked s trace) (ht : Told trace) (hlaw : Law s trace) (hnone : payloadIds trace = [])
    {c : ShortEventId} {v w : VerifiedEvent} {timestamp depth : ℕ}
    (hfound : .found c w timestamp depth ∈ trace) (hle : timestamp ≤ u64Max) :
    Ranked ((allParents v.event).foldl (Download.queueParent timestamp (depth + 1)) s)
      (trace ++ [.expanded c v]) := by
  have hids : foundIds (trace ++ [.expanded c v]) = foundIds trace := by simp
  have hget : ∀ id, ((allParents v.event).foldl (Download.queueParent timestamp (depth + 1)) s).inQueue.get id =
      if id ∈ allParents v.event then some (reachedRow timestamp (depth + 1) (s.inQueue.get id))
      else s.inQueue.get id := queueParents_get (allParents_nodup _)
  refine ⟨?_, ?_, ?_⟩
  · intro id item hitem hstate
    rw [hget] at hitem
    split at hitem
    · next hparent =>
      exact Placed.reached h ht hlaw hnone hfound hle hparent (Option.some.inj hitem) hstate
    · next hparent =>
      refine h.placed_frame (h.placed hitem hstate) ?_ fun _ hcon => by cases hcon
      rw [reachedThrough_expanded, if_neg hparent]
  · intro id hitem hnot
    rw [hget] at hitem
    rw [hids] at hnot
    split at hitem
    · cases hitem
    · next hparent =>
      rw [reachedThrough_expanded, if_neg hparent]
      exact h.absent hitem hnot
  · intro id c' hc
    rw [reachedThrough_expanded] at hc
    rw [hids]
    split at hc
    · rcases List.mem_append.mp hc with hc | hc
      · exact h.children id c' hc
      · rw [List.mem_singleton.mp hc]
        exact mem_foundIds.mpr ⟨w, timestamp, depth, hfound⟩
    · exact h.children id c' hc

/-! ## 2. The order of the payload phases

The queue is ordered by priority, and its least entry is taken. As discovery is over when the first payload phase
begins, no entry is added then. -/

/-- The priority under which an envelope is filed. -/
def Filed (before : List Label) (label : Label) : Prop :=
  ∀ id v timestamp depth, label = .found id v timestamp depth →
    IsLeast (insert (min u64Max v.event.timestamp) (childTimestamps id before)) timestamp ∧
      IsGreatest (insert 0 (childDepths id before)) depth ∧ ∀ c ∈ reachedThrough id before, c ∈ foundIds before

/-- Everything that has an earlier priority has had its payload phase.  A smaller effective timestamp is earlier, and of
two equal ones the greater depth is. -/
def Ordered (before : List Label) (label : Label) : Prop :=
  ∀ c request, label = .payload c request →
    ∃ v timestamp depth, .found c v timestamp depth ∈ before ∧
      ∀ id v' timestamp' depth', .found id v' timestamp' depth' ∈ before →
        keyed timestamp' depth' < keyed timestamp depth → id ∈ payloadIds before

theorem filed_of_none (before : List Label) {label : Label} (h : label.found? = none) : Filed before label := by
  rintro id v timestamp depth rfl
  cases h

theorem ordered_of_none (before : List Label) {label : Label} (h : label.payload? = none) :
    Ordered before label := by
  rintro c request rfl
  cases h

omit [Primitives] in
/-- The least of the children and of the envelope itself. -/
theorem isLeast_own {S : Set ℕ} {timestamp bound : ℕ} (h : IsLeast (insert bound S) timestamp) (own : ℕ) :
    IsLeast (insert (min bound own) S) (min timestamp own) := by
  have hle : timestamp ≤ bound := h.2 (Set.mem_insert _ _)
  refine ⟨?_, ?_⟩
  · rcases h.1 with rfl | hmem
    · exact Set.mem_insert _ _
    · rcases le_total timestamp own with hcase | hcase
      · rw [min_eq_left hcase]
        exact Set.mem_insert_of_mem _ hmem
      · rw [min_eq_right hcase, min_eq_right (hcase.trans hle)]
        exact Set.mem_insert _ _
  · rintro t (rfl | ht)
    · exact min_le_min_right own hle
    · exact (min_le_left _ _).trans (h.2 (Set.mem_insert_of_mem _ ht))

theorem Ranked.filed (h : Ranked s trace) {id : ShortEventId} {item : QueueItemData}
    (hnext : Next s unkeyed id item) (hstate : item.processState = none) (v : VerifiedEvent) :
    Filed trace (.found id v (min item.childTimestamp v.event.timestamp) item.depth) := by
  rintro id' v' timestamp depth heq
  cases heq
  have hplaced := h.placed hnext.row hstate
  exact ⟨isLeast_own hplaced.timestamp _, hplaced.depth, h.children id⟩

theorem Law.ordered (h : Law s trace) {timestamp depth : ℕ} {id : ShortEventId} {item : QueueItemData}
    (hnext : Next s (keyed timestamp depth) id item) (request : Option VerifiedEvent) :
    Ordered trace (.payload id request) := by
  rintro id' request' heq
  cases heq
  obtain ⟨⟨v, hv⟩, -⟩ := h.waiting.mp hnext.mem
  refine ⟨v, timestamp, depth, hv, ?_⟩
  intro id' v' timestamp' depth' hv' hlt
  -- otherwise its entry would have come first
  by_contra hnot
  have hle := hnext.least _ (h.waiting.mpr ⟨⟨v', hv'⟩, hnot⟩)
  exact absurd hle (not_le_of_gt (Prod.Lex.toLex_lt_toLex.mpr (.inl hlt)))

/-- **The invariant of a call.** -/
structure Sequenced (s : Download) (trace : List Label) : Prop where
  told : Told trace
  filed : Machine.Everywhere Filed trace
  ordered : Machine.Everywhere Ordered trace
  law : s.result = none → Law s trace
  ranked : s.result = none → Ranked s trace

theorem Moved.sequenced (h : Moved env author s turn s' shown) (hj : Sequenced s trace) (hrunning : s.result = none) :
    Sequenced s' (trace ++ shown) := by
  have hlaw := hj.law hrunning
  have hranked := hj.ranked hrunning
  obtain ⟨htold, hlaw'⟩ := h.keeps hlaw hj.told
  cases h with
  | finished =>
    rw [List.append_nil] at htold ⊢
    exact ⟨htold, hj.filed, hj.ordered, (by cases ·), (by cases ·)⟩
  | unwanted hnext =>
    exact ⟨htold, hj.filed.snoc (filed_of_none _ rfl), hj.ordered.snoc (hlaw.ordered hnext _), hlaw',
      fun _ => hranked.payload hlaw hnext _ rfl⟩
  | refused hnext =>
    exact ⟨htold, hj.filed.snoc (filed_of_none _ rfl), hj.ordered.snoc (hlaw.ordered hnext _), hlaw',
      (by cases ·)⟩
  | read hnext =>
    exact ⟨htold, hj.filed.snoc (filed_of_none _ rfl), hj.ordered.snoc (hlaw.ordered hnext _), hlaw',
      fun _ => hranked.payload hlaw hnext _ rfl⟩
  | failed =>
    rw [List.append_nil] at htold ⊢
    exact ⟨htold, hj.filed, hj.ordered, (by cases ·), (by cases ·)⟩
  | missed hnext =>
    exact ⟨htold, hj.filed.snoc (filed_of_none _ rfl), hj.ordered.snoc (ordered_of_none _ rfl),
      hlaw', fun _ => hranked.missed _ _⟩
  | left hnext hstate =>
    exact ⟨htold, hj.filed.snoc (hranked.filed hnext hstate _), hj.ordered.snoc (ordered_of_none _ rfl),
      hlaw', fun _ => hranked.file hlaw hnext _ _⟩
  | @expanded id item db o hnext hstate =>
    have hfound := hlaw.file hnext db o
    have hnone : payloadIds (trace ++ [.found id o.event (min item.childTimestamp o.event.event.timestamp)
        item.depth]) = [] := by
      simp [hlaw.discovering hnext.mem]
    have hle : min item.childTimestamp o.event.event.timestamp ≤ u64Max :=
      (min_le_left _ _).trans (hranked.placed hnext.row hstate).timestamp_le
    rw [List.append_cons] at htold hlaw' ⊢
    exact ⟨htold,
      (hj.filed.snoc (hranked.filed hnext hstate _)).snoc (filed_of_none _ rfl),
      (hj.ordered.snoc (ordered_of_none _ rfl)).snoc (ordered_of_none _ rfl), hlaw',
      fun _ => (hranked.file hlaw hnext db o).expand (hj.told.file hlaw hnext.mem _ _ _) hfound hnone
        (List.mem_append_right _ (List.mem_singleton.mpr rfl)) hle⟩

/-- **Every call** is sequenced, at each of its iterations. -/
theorem downloaded_sequenced (env : Env) (author : RostraId) (head : ShortEventId) (db : Database)
    (turns : List Turn) :
    Sequenced (downloadEventsFromChild env author head db turns).1
      (downloadEventsFromChild env author head db turns).2 := by
  refine Machine.run_invariant ?_ turns ?_
  · exact ⟨.start, .nil, .nil, fun _ => .start head db, fun _ => .start head db⟩
  · intro turn _ s trace s' shown hj hstep
    have hrunning : s.result = none := by
      by_contra hne
      unfold step at hstep
      rw [if_pos (Option.isSome_iff_ne_none.mpr hne)] at hstep
      cases hstep
    exact (step_cases (hj.law hrunning).paired hstep).2.sequenced hj hrunning

/-! ## 3. Ancestors

Along the children that led to a parent before it was obtained the timestamps do not increase towards the parent,
and the depth grows. -/

/-- A parent was reached through this child before it was obtained. -/
def Led (trace : List Label) (c p : ShortEventId) : Prop :=
  ∃ before v timestamp depth after, trace = before ++ .found p v timestamp depth :: after ∧
    c ∈ reachedThrough p before

/-- A chain of children of this length leads to an envelope. -/
inductive Chain (trace : List Label) : ℕ → ShortEventId → Prop
  | start (id : ShortEventId) : Chain trace 0 id
  | hop {n : ℕ} {c p : ShortEventId} (h : Chain trace n c) (hled : Led trace c p) : Chain trace (n + 1) p

section Told

variable (ht : Told trace) (hf : Machine.Everywhere Filed trace)
include ht hf

/-- Both ends of a step, with what their priorities have to do with each other. -/
theorem Led.filed {c p : ShortEventId} (h : Led trace c p) {v : VerifiedEvent} {timestamp depth : ℕ}
    (hp : .found p v timestamp depth ∈ trace) :
    ∃ w timestamp' depth', .found c w timestamp' depth' ∈ trace ∧ timestamp ≤ timestamp' ∧ depth' + 1 ≤ depth := by
  obtain ⟨before, v', timestamp', depth', after, hsplit, hc⟩ := h
  have hmem : Label.found p v' timestamp' depth' ∈ trace := by
    rw [hsplit]
    exact List.mem_append_right _ List.mem_cons_self
  obtain ⟨rfl, rfl⟩ := ht.found_unique hp hmem
  obtain ⟨hleast, hgreatest, hchildren⟩ := hf before _ after hsplit p v' timestamp depth rfl
  obtain ⟨w, timestamp', depth', hw⟩ := mem_foundIds.mp (hchildren c hc)
  refine ⟨w, timestamp', depth', ?_, ?_, ?_⟩
  · rw [hsplit]
    exact List.mem_append_left _ hw
  · exact hleast.2 (Set.mem_insert_of_mem _ ⟨c, hc, w, depth', hw⟩)
  · exact hgreatest.2 (Set.mem_insert_of_mem _ ⟨c, hc, w, timestamp', depth', hw, rfl⟩)

theorem Chain.le {n : ℕ} {id : ShortEventId} (h : Chain trace n id) {v : VerifiedEvent} {timestamp depth : ℕ}
    (hid : .found id v timestamp depth ∈ trace) : n ≤ depth := by
  induction h generalizing v timestamp depth with
  | start => exact Nat.zero_le _
  | hop _ hled ih =>
    obtain ⟨w, timestamp', depth', hw, -, hdepth⟩ := hled.filed ht hf hid
    exact (Nat.succ_le_succ (ih hw)).trans hdepth

omit ht in
theorem Chain.exists {depth : ℕ} : ∀ {id : ShortEventId} {v : VerifiedEvent} {timestamp : ℕ},
    .found id v timestamp depth ∈ trace → Chain trace depth id := by
  induction depth with
  | zero => exact fun _ => .start _
  | succ depth ih =>
    intro id v timestamp hid
    obtain ⟨before, after, hsplit⟩ := List.append_of_mem hid
    obtain ⟨-, hgreatest, -⟩ := hf before _ after hsplit id v timestamp (depth + 1) rfl
    rcases hgreatest.1 with hcon | ⟨c, hc, w, timestamp', depth', hw, heq⟩
    · cases hcon
    · obtain rfl := Nat.succ.inj heq
      have hmem : Label.found c w timestamp' depth ∈ trace := by
        rw [hsplit]
        exact List.mem_append_left _ hw
      exact .hop (ih hmem) ⟨before, v, timestamp, depth + 1, after, hsplit, hc⟩

/-- **The depth is the longest chain** of children that had reached an envelope when it was obtained. -/
theorem depth_longest {id : ShortEventId} {v : VerifiedEvent} {timestamp depth : ℕ}
    (hid : .found id v timestamp depth ∈ trace) : IsGreatest { n | Chain trace n id } depth :=
  ⟨Chain.exists hf hid, fun _ h => Chain.le ht hf h hid⟩

/-- An ancestor has an earlier priority. -/
theorem ancestor_before {c a : ShortEventId} (h : Relation.TransGen (Led trace) c a) {v : VerifiedEvent}
    {timestamp depth : ℕ} (ha : .found a v timestamp depth ∈ trace) :
    ∃ w timestamp' depth', .found c w timestamp' depth' ∈ trace ∧
      keyed timestamp depth < keyed timestamp' depth' := by
  have hone : ∀ {c p v timestamp depth}, Led trace c p → .found p v timestamp depth ∈ trace →
      ∃ w timestamp' depth', .found c w timestamp' depth' ∈ trace ∧
        keyed timestamp depth < keyed timestamp' depth' := by
    intro c p v timestamp depth hled hp
    obtain ⟨w, timestamp', depth', hw, hts, hdepth⟩ := hled.filed ht hf hp
    refine ⟨w, timestamp', depth', hw, keyed_lt.mpr ?_⟩
    rcases hts.lt_or_eq with hlt | heq
    · exact .inl hlt
    · exact .inr ⟨heq, hdepth⟩
  induction h generalizing v timestamp depth with
  | single hled => exact hone hled ha
  | tail _ hled ih =>
    obtain ⟨w, timestamp', depth', hw, hlt⟩ := hone hled ha
    obtain ⟨w', timestamp'', depth'', hw', hlt'⟩ := ih hw
    exact ⟨w', timestamp'', depth'', hw', hlt.trans hlt'⟩

end Told

/-- **Payloads are processed ancestors first**, along the children that a parent was reached through before it was
obtained: they give the parent its effective timestamp and its depth, and payload phases come in the order of these. -/
theorem payloads_ancestors_first (env : Env) (author : RostraId) (head : ShortEventId) (db : Database)
    (turns : List Turn) :
    let trace := (downloadEventsFromChild env author head db turns).2
    (∀ before id v timestamp depth after, trace = before ++ .found id v timestamp depth :: after →
      IsLeast (insert (min u64Max v.event.timestamp) (childTimestamps id before)) timestamp ∧
        IsGreatest { n | Chain trace n id } depth) ∧
    Machine.Everywhere Ordered trace ∧
    ∀ before c request after, trace = before ++ .payload c request :: after →
      ∀ a ∈ foundIds trace, Relation.TransGen (Led trace) c a → a ∈ payloadIds before := by
  have hj := downloaded_sequenced env author head db turns
  refine ⟨?_, hj.ordered, ?_⟩
  · intro before id v timestamp depth after hsplit
    have hmem : Label.found id v timestamp depth ∈ (downloadEventsFromChild env author head db turns).2 := by
      rw [hsplit]
      exact List.mem_append_right _ List.mem_cons_self
    exact ⟨(hj.filed before _ after hsplit id v timestamp depth rfl).1, depth_longest hj.told hj.filed hmem⟩
  · intro before c request after hsplit a ha hancestor
    obtain ⟨v, timestamp, depth, hv⟩ := mem_foundIds.mp ha
    obtain ⟨w, timestamp', depth', hw, hlt⟩ := ancestor_before hj.told hj.filed hancestor hv
    obtain ⟨w', timestamp'', depth'', hw', hearlier⟩ := hj.ordered before _ after hsplit c request rfl
    have hc := hj.told.found_before hsplit hw
    obtain ⟨rfl, rfl⟩ := hj.told.found_unique hw (hsplit ▸ List.mem_append_left _ hw')
    exact hearlier a v timestamp depth (hj.told.found_before hsplit hv) hlt

end Order

/-! ### A late child

A graph in which the order of discovery and that of the graph differ. -/

section Late

attribute [local instance] Primitives.reference

/-- Events whose identifiers are their timestamps. -/
def latePost (timestamp : Timestamp) (prev aux : Option ShortEventId) : Event :=
  { kind := EventKind.SOCIAL_POST, contentLen := 2, timestamp := timestamp, author := toLex (1, 1)
    parentPrev := prev, parentAux := aux, contentHash := blake3 [0, 65] }

/-- A peer with the whole graph: `10` has the parents `3` and `5`, and `5` is reached again through `3` and `7`. -/
def lateTurn : Turn where
  now := 20
  answers := [⟨latePost 10 (some 3) (some 5), true⟩, ⟨latePost 3 (some 7) none, true⟩,
    ⟨latePost 7 (some 5) none, true⟩, ⟨latePost 5 none none, true⟩]
  random := 0
  reading := { first := { now := 20, ledger := {} }, race := .ok none, now := 20, ledger := {} }

def lateTrace : List Label :=
  (downloadEventsFromChild sampleEnv (toLex (1, 1)) 10 {} (List.replicate 9 lateTurn)).2

/-- **A child that is obtained after its parent** does not move the parent's entry: the payload of `7` is requested
before that of its parent `5`. -/
theorem late_child_first :
    ¬ ∀ before c v after, lateTrace = before ++ .payload c (some v) :: after →
      ∀ a ∈ foundIds lateTrace, a ∈ allParents v.event → a ∈ payloadIds before := by
  intro h
  have hhead : lateTrace.drop 8 = .payload 7 (some (.ofEvent (latePost 7 (some 5) none))) :: lateTrace.drop 9 := by
    decide +kernel
  have hsplit : lateTrace =
      lateTrace.take 8 ++ .payload 7 (some (.ofEvent (latePost 7 (some 5) none))) :: lateTrace.drop 9 := by
    rw [← hhead, List.take_append_drop]
  have hfound : 5 ∈ foundIds lateTrace := by decide +kernel
  have hnone : payloadIds (lateTrace.take 8) = [] := by decide +kernel
  have hparent := h _ _ _ _ hsplit 5 hfound (by decide)
  rw [hnone] at hparent
  cases hparent

end Late

end Rostra.DownloadEvents
