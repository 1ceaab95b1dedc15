/-
# The queue of a download

`download_events_from_child` keeps a queue and a table in step by hand: an entry is taken out, comes back under
another priority, has its row changed in place, or is dropped.

* Section 2: what one iteration does while the two are in step (`Moved`).  None of its three assertions fails.
* Section 3: what the queue says about the call so far (`Law`).  An entry with a priority is an envelope that was
  obtained and whose payload phase is still to come; an entry without one was not looked for.  The latter come
  first, so discovery has finished when the first payload phase begins.

The queue and the table are two views of one set of entries. Everything later results need to know about the queue
is said in terms of what was shown, so that the queue itself does not appear in them.
-/
import Mathlib.Data.List.Nodup
import Rostra.Client.DownloadEvents

namespace Rostra.DownloadEvents

open Rostra Rostra.Db PairedQueue

/-! ## 1. Priorities

An entry without a priority sorts before all others. -/

@[simp] theorem keyed_ne_unkeyed (timestamp depth : ℕ) : keyed timestamp depth ≠ unkeyed := WithBot.coe_ne_bot

theorem keyed_inj {timestamp depth timestamp' depth' : ℕ} :
    keyed timestamp depth = keyed timestamp' depth' ↔ timestamp = timestamp' ∧ depth = depth' := by
  unfold keyed
  rw [WithBot.coe_inj, toLex_inj, Prod.mk.injEq, OrderDual.toDual_inj]

theorem keyed_lt {timestamp depth timestamp' depth' : ℕ} :
    keyed timestamp depth < keyed timestamp' depth' ↔
      timestamp < timestamp' ∨ timestamp = timestamp' ∧ depth' < depth := by
  unfold keyed
  rw [WithBot.coe_lt_coe, Prod.Lex.toLex_lt_toLex, OrderDual.toDual_lt_toDual]

/-- A priority is unset, or a timestamp with a depth. -/
theorem priority_cases (k : Priority) : k = unkeyed ∨ ∃ timestamp depth, k = keyed timestamp depth := by
  cases k using WithBot.recBotCoe with
  | bot => exact .inl rfl
  | coe k => exact .inr ⟨(ofLex k).1, OrderDual.ofDual (ofLex k).2, rfl⟩

/-- What has not been looked for comes first. So the payload phases begin when discovery is over. -/
theorem unkeyed_lt (timestamp depth : ℕ) (id id' : ShortEventId) :
    (toLex (unkeyed, id) : QueueKey) < toLex (keyed timestamp depth, id') :=
  Prod.Lex.toLex_lt_toLex.mpr (.inl (WithBot.bot_lt_coe _))

variable [Primitives]

/-- An entry has a priority exactly if its state is set, and then its envelope is there. -/
def Fits (item : QueueItemData) (k : Priority) : Prop :=
  (item.processState = none ↔ k = unkeyed) ∧ (item.processState.isSome = true → item.event.isSome = true)

theorem fits_unkeyed (timestamp depth : ℕ) :
    Fits { childTimestamp := timestamp, depth := depth } unkeyed :=
  ⟨⟨fun _ => rfl, fun _ => rfl⟩, fun h => by cases h⟩

/-- Changing the position of a row does not touch its state. -/
theorem Fits.moved {item : QueueItemData} {k : Priority} (h : Fits item k) (timestamp depth : ℕ) :
    Fits { item with childTimestamp := timestamp, depth := depth } k := h

/-! ## 2. One iteration

An iteration takes the least entry. It looks for its envelope and queues the parents, or it runs its payload phase;
the code tells these apart by the state in the row, and asserts that the two views agree. -/

/-- Taking an entry out, with its row. -/
def Download.pop (s : Download) (k : Priority) (id : ShortEventId) : Download :=
  { s with queue := s.queue.erase (toLex (k, id)), inQueue := s.inQueue.remove id }

/-- After a transaction. -/
def Download.onto (s : Download) (db : Database) : Download := { s with db := db }

omit [Primitives] in
theorem allParents_nodup (e : Event) : (allParents e).Nodup := by
  unfold allParents
  split
  · split
    · exact List.nodup_singleton _
    · next hne =>
      split
      · exact List.nodup_cons.mpr ⟨by simpa using hne, List.nodup_singleton _⟩
      · exact List.nodup_cons.mpr ⟨by simpa using Ne.symm hne, List.nodup_singleton _⟩
  · exact List.nodup_singleton _
  · exact List.nodup_singleton _
  · exact List.nodup_nil

section Parents

variable {timestamp depth : ℕ} {s : Download} {parents : List ShortEventId}

theorem queueParent_db (parent : ShortEventId) : (s.queueParent timestamp depth parent).db = s.db := by
  unfold Download.queueParent
  split <;> rfl

theorem queueParent_result (parent : ShortEventId) : (s.queueParent timestamp depth parent).result = s.result := by
  unfold Download.queueParent
  split <;> rfl

theorem queueParent_flag (parent : ShortEventId) :
    (s.queueParent timestamp depth parent).downloadedAnything = s.downloadedAnything := by
  unfold Download.queueParent
  split <;> rfl

/-- The entries that have a priority stay as they are. A child that comes late does not move them. -/
theorem queueParent_keyed (parent : ShortEventId) {timestamp' depth' : ℕ} {id : ShortEventId} :
    toLex (keyed timestamp' depth', id) ∈ (s.queueParent timestamp depth parent).queue ↔
      toLex (keyed timestamp' depth', id) ∈ s.queue := by
  unfold Download.queueParent
  split
  · exact Iff.rfl
  · rw [Finset.mem_insert]
    constructor
    · rintro (heq | hmem)
      · exact absurd (Prod.mk.inj (toLex_inj.mp heq)).1 (keyed_ne_unkeyed _ _)
      · exact hmem
    · exact .inr

theorem queueParent_paired (h : Paired Fits s.queue s.inQueue) (parent : ShortEventId) :
    Paired Fits (s.queueParent timestamp depth parent).queue (s.queueParent timestamp depth parent).inQueue := by
  unfold Download.queueParent
  split
  · next existing hget => exact h.modify hget fun _ hfits => hfits.moved _ _
  · next hnone => exact h.push hnone (fits_unkeyed _ _)

/-- The row of a parent, after it was reached once more: the earlier time and the greater depth. -/
def reachedRow (timestamp depth : ℕ) : Option QueueItemData → QueueItemData
  | some existing => { existing with
      childTimestamp := min existing.childTimestamp timestamp
      depth := max existing.depth depth }
  | none => { childTimestamp := timestamp, depth := depth }

theorem queueParent_get (parent id : ShortEventId) :
    (s.queueParent timestamp depth parent).inQueue.get id =
      if id = parent then some (reachedRow timestamp depth (s.inQueue.get parent)) else s.inQueue.get id := by
  unfold Download.queueParent
  split
  · next existing hget =>
    split
    · next heq => rw [heq, Table.get_insert_self, hget]; rfl
    · next hne => exact Table.get_insert_of_ne _ _ hne
  · next hnone =>
    split
    · next heq => rw [heq, Table.get_insert_self, hnone]; rfl
    · next hne => exact Table.get_insert_of_ne _ _ hne

theorem queueParents_db : (parents.foldl (Download.queueParent timestamp depth) s).db = s.db := by
  induction parents generalizing s with
  | nil => rfl
  | cons parent parents ih => exact ih.trans (queueParent_db parent)

theorem queueParents_result : (parents.foldl (Download.queueParent timestamp depth) s).result = s.result := by
  induction parents generalizing s with
  | nil => rfl
  | cons parent parents ih => exact ih.trans (queueParent_result parent)

theorem queueParents_flag :
    (parents.foldl (Download.queueParent timestamp depth) s).downloadedAnything = s.downloadedAnything := by
  induction parents generalizing s with
  | nil => rfl
  | cons parent parents ih => exact ih.trans (queueParent_flag parent)

theorem queueParents_keyed {timestamp' depth' : ℕ} {id : ShortEventId} :
    toLex (keyed timestamp' depth', id) ∈ (parents.foldl (Download.queueParent timestamp depth) s).queue ↔
      toLex (keyed timestamp' depth', id) ∈ s.queue := by
  induction parents generalizing s with
  | nil => exact Iff.rfl
  | cons parent parents ih => exact ih.trans (queueParent_keyed parent)

theorem queueParents_paired (h : Paired Fits s.queue s.inQueue) :
    Paired Fits (parents.foldl (Download.queueParent timestamp depth) s).queue
      (parents.foldl (Download.queueParent timestamp depth) s).inQueue := by
  induction parents generalizing s with
  | nil => exact h
  | cons parent parents ih => exact ih (queueParent_paired h parent)

/-- Each parent is reached once. -/
theorem queueParents_get (hnodup : parents.Nodup) (id : ShortEventId) :
    (parents.foldl (Download.queueParent timestamp depth) s).inQueue.get id =
      if id ∈ parents then some (reachedRow timestamp depth (s.inQueue.get id)) else s.inQueue.get id := by
  induction parents generalizing s with
  | nil => rw [if_neg List.not_mem_nil, List.foldl_nil]
  | cons parent parents ih =>
    obtain ⟨hnew, hnodup⟩ := List.nodup_cons.mp hnodup
    rw [List.foldl_cons, ih hnodup, queueParent_get]
    by_cases heq : id = parent
    · subst heq
      rw [if_neg hnew, if_pos rfl, if_pos List.mem_cons_self]
    · rw [if_neg heq]
      have hmem : id ∈ parent :: parents ↔ id ∈ parents := by simp [heq]
      simp only [hmem]

end Parents

/-- The entry that is taken out, and its row. That it has one is the pairing of queue and table. -/
structure Next (s : Download) (k : Priority) (id : ShortEventId) (item : QueueItemData) : Prop where
  mem : toLex (k, id) ∈ s.queue
  least : ∀ key ∈ s.queue, toLex (k, id) ≤ key
  row : s.inQueue.get id = some item

/-- The entry of an envelope that was obtained comes back. -/
def Download.file (s : Download) (id : ShortEventId) (item : QueueItemData) (o : Obtained) : Download :=
  { s with
    downloadedAnything := s.downloadedAnything || !o.alreadyPresent
    queue := insert (toLex (keyed (min item.childTimestamp o.event.event.timestamp) item.depth, id)) s.queue
    inQueue := s.inQueue.insert id { item with processState := some o.processState, event := some o.event } }

/-- **What one iteration does** while the queue and its table are in step. One constructor for each way through the
body of the loop. -/
inductive Moved (env : Env) (author : RostraId) (s : Download) (turn : Turn) : Download → List Label → Prop
  | finished (hempty : s.queue = ∅) : Moved env author s turn { s with result := some (.ok s.downloadedAnything) } []
  | unwanted {timestamp depth : ℕ} {id : ShortEventId} {item : QueueItemData} {state : ProcessEventState}
      (hnext : Next s (keyed timestamp depth) id item) (hstate : item.processState = some state)
      (hwants : wantsContent s.db.ev id state = false) :
      Moved env author s turn (s.pop (keyed timestamp depth) id) [.payload id none]
  | refused {timestamp depth : ℕ} {id : ShortEventId} {item : QueueItemData} {state : ProcessEventState}
      {v : VerifiedEvent} {db : Database} {stop : Stop}
      (hnext : Next s (keyed timestamp depth) id item) (hstate : item.processState = some state)
      (hevent : item.event = some v) (hwants : wantsContent s.db.ev id state = true)
      (hfetch : fetchEventContentFromPeersDetailed env s.db v turn.reading = (db, .error stop)) :
      Moved env author s turn (((s.pop (keyed timestamp depth) id).onto db).stop stop) [.payload id (some v)]
  | read {timestamp depth : ℕ} {id : ShortEventId} {item : QueueItemData} {state : ProcessEventState}
      {v : VerifiedEvent} {db : Database} {outcome : ContentFetchOutcome}
      (hnext : Next s (keyed timestamp depth) id item) (hstate : item.processState = some state)
      (hevent : item.event = some v) (hwants : wantsContent s.db.ev id state = true)
      (hfetch : fetchEventContentFromPeersDetailed env s.db v turn.reading = (db, .ok outcome)) :
      Moved env author s turn
        { (s.pop (keyed timestamp depth) id).onto db with
          downloadedAnything := s.downloadedAnything || outcome.materialized }
        [.payload id (some v)]
  | failed {id : ShortEventId} {item : QueueItemData} {e : DbError}
      (hnext : Next s unkeyed id item) (hobtain : obtainEvent env author s.db id turn = .error e) :
      Moved env author s turn ((s.pop unkeyed id).stop (.storage e)) []
  | missed {id : ShortEventId} {item : QueueItemData} {db : Database}
      (hnext : Next s unkeyed id item) (hobtain : obtainEvent env author s.db id turn = .ok (db, none)) :
      Moved env author s turn ((s.pop unkeyed id).onto db) [.missed id]
  | left {id : ShortEventId} {item : QueueItemData} {db : Database} {o : Obtained}
      (hnext : Next s unkeyed id item) (hstate : item.processState = none)
      (hobtain : obtainEvent env author s.db id turn = .ok (db, some o)) :
      Moved env author s turn (((s.pop unkeyed id).onto db).file id item o)
        [.found id o.event (min item.childTimestamp o.event.event.timestamp) item.depth]
  | expanded {id : ShortEventId} {item : QueueItemData} {db : Database} {o : Obtained}
      (hnext : Next s unkeyed id item) (hstate : item.processState = none)
      (hobtain : obtainEvent env author s.db id turn = .ok (db, some o)) :
      Moved env author s turn
        ((allParents o.event.event).foldl
          (Download.queueParent (min item.childTimestamp o.event.event.timestamp) (item.depth + 1))
          (((s.pop unkeyed id).onto db).file id item o))
        [.found id o.event (min item.childTimestamp o.event.event.timestamp) item.depth,
          .expanded id o.event]

variable {env : Env} {author : RostraId} {s s' : Download} {turn : Turn} {shown : List Label}

theorem payloadPhase_cases {timestamp depth : ℕ} {id : ShortEventId} {item : QueueItemData}
    {state : ProcessEventState} {v : VerifiedEvent} (hnext : Next s (keyed timestamp depth) id item)
    (hstate : item.processState = some state) (hevent : item.event = some v)
    (h : (s.pop (keyed timestamp depth) id).payloadPhase env turn id item state = (s', shown)) :
    Moved env author s turn s' shown := by
  unfold Download.payloadPhase at h
  split at h
  · next hwants =>
    rw [hevent] at h
    dsimp only at h
    split at h
    · next db stop hfetch =>
      cases h
      exact .refused hnext hstate hevent hwants hfetch
    · next db outcome hfetch =>
      cases h
      exact .read hnext hstate hevent hwants hfetch
  · next hwants =>
    cases h
    exact .unwanted hnext hstate (Bool.eq_false_iff.mpr hwants)

theorem traverse_cases {id : ShortEventId} {item : QueueItemData} (hnext : Next s unkeyed id item)
    (hstate : item.processState = none)
    (h : (s.pop unkeyed id).traverse env author turn id item = (s', shown)) :
    Moved env author s turn s' shown := by
  unfold Download.traverse at h
  split at h
  · next e hobtain =>
    cases h
    exact .failed hnext hobtain
  · next db hobtain =>
    cases h
    exact .missed hnext hobtain
  · next db o hobtain =>
    unfold Download.requeue at h
    dsimp only at h
    split at h
    · cases h
      exact .left hnext hstate hobtain
    · cases h
      exact .expanded hnext hstate hobtain

/-- **No assertion fails** while the queue and its table are in step, and an iteration is one of the moves. -/
theorem step_cases (hpaired : Paired Fits s.queue s.inQueue) (h : step env author s turn = some (s', shown)) :
    s.result = none ∧ Moved env author s turn s' shown := by
  unfold step at h
  split at h
  · cases h
  · next hrunning =>
    have hrunning : s.result = none := Option.not_isSome_iff_eq_none.mp hrunning
    refine ⟨hrunning, ?_⟩
    split at h
    · next hnone =>
      cases h
      exact .finished (popFirst_none hnone)
    · next key queue hpop =>
      obtain ⟨hmem, rfl, hleast⟩ := popFirst_some hpop
      obtain ⟨⟨k, id⟩, rfl⟩ := toLex.surjective key
      obtain ⟨item, hitem, hfits⟩ := hpaired.row hmem
      have hnext : Next s k id item := ⟨hmem, hleast, hitem⟩
      have hget : s.inQueue.get (ofLex (toLex (k, id))).2 = some item := hitem
      dsimp only at h
      rw [hget] at h
      dsimp only at h
      split at h
      · next state hstate =>
        have hset : item.processState.isSome = true := by rw [hstate]; rfl
        obtain ⟨v, hevent⟩ := Option.isSome_iff_exists.mp (hfits.2 hset)
        rcases priority_cases k with rfl | ⟨timestamp, depth, rfl⟩
        · rw [hfits.1.mpr rfl] at hstate
          cases hstate
        · exact payloadPhase_cases hnext hstate hevent (Option.some.inj h)
      · next hstate =>
        obtain rfl := hfits.1.mp hstate
        have hkey : (ofLex (toLex (unkeyed, id))).1 = unkeyed := rfl
        rw [if_pos hkey] at h
        exact traverse_cases hnext hstate (Option.some.inj h)

/-! ## 3. The law of the loop

Two parts: what holds while the loop goes on, and what is true of the labels whatever comes next, also when the
loop has been broken off. -/

section Trace

variable {trace : List Label}

@[simp] theorem foundIds_append (shown : List Label) :
    foundIds (trace ++ shown) = foundIds trace ++ foundIds shown := List.filterMap_append

@[simp] theorem payloadIds_append (shown : List Label) :
    payloadIds (trace ++ shown) = payloadIds trace ++ payloadIds shown := List.filterMap_append

@[simp] theorem foundIds_found (id : ShortEventId) (v : VerifiedEvent) (timestamp depth : ℕ) :
    foundIds [.found id v timestamp depth] = [id] := rfl

@[simp] theorem foundIds_missed (id : ShortEventId) : foundIds [.missed id] = [] := rfl

@[simp] theorem foundIds_expanded (id : ShortEventId) (v : VerifiedEvent) : foundIds [.expanded id v] = [] := rfl

@[simp] theorem foundIds_payload (id : ShortEventId) (request : Option VerifiedEvent) :
    foundIds [.payload id request] = [] := rfl

@[simp] theorem payloadIds_found (id : ShortEventId) (v : VerifiedEvent) (timestamp depth : ℕ) :
    payloadIds [.found id v timestamp depth] = [] := rfl

@[simp] theorem payloadIds_missed (id : ShortEventId) : payloadIds [.missed id] = [] := rfl

@[simp] theorem payloadIds_expanded (id : ShortEventId) (v : VerifiedEvent) :
    payloadIds [.expanded id v] = [] := rfl

@[simp] theorem payloadIds_payload (id : ShortEventId) (request : Option VerifiedEvent) :
    payloadIds [.payload id request] = [id] := rfl

theorem mem_foundIds {id : ShortEventId} :
    id ∈ foundIds trace ↔ ∃ v timestamp depth, .found id v timestamp depth ∈ trace := by
  unfold foundIds
  rw [List.mem_filterMap]
  constructor
  · rintro ⟨label, hmem, hlabel⟩
    cases label with
    | found id' v timestamp depth =>
      obtain rfl := Option.some.inj hlabel
      exact ⟨v, timestamp, depth, hmem⟩
    | missed => cases hlabel
    | expanded => cases hlabel
    | payload => cases hlabel
  · rintro ⟨v, timestamp, depth, hmem⟩
    exact ⟨_, hmem, rfl⟩

end Trace

/-- What a call has shown, whatever comes next: nothing twice, and no payload phase before discovery is over. -/
structure Told (trace : List Label) : Prop where
  found_once : (foundIds trace).Nodup
  payload_once : (payloadIds trace).Nodup
  payload_found : ∀ id ∈ payloadIds trace, id ∈ foundIds trace
  staged : Machine.Everywhere (fun before label => label.payload? = none → payloadIds before = []) trace

/-- **What the queue says about the call so far**: which envelopes were obtained and are still to have their
payload phase, and which were not looked for. -/
structure Law (s : Download) (trace : List Label) : Prop where
  paired : Paired Fits s.queue s.inQueue
  waiting : ∀ {timestamp depth id}, toLex (keyed timestamp depth, id) ∈ s.queue ↔
    (∃ v, .found id v timestamp depth ∈ trace) ∧ id ∉ payloadIds trace
  staged : payloadIds trace ≠ [] → ∀ id, toLex (unkeyed, id) ∉ s.queue

variable {trace : List Label}

theorem Law.start (head : ShortEventId) (db : Database) : Law (.start head db) [] where
  paired := by
    have h : Paired Fits (∅ : Finset QueueKey) (∅ : Table ShortEventId QueueItemData) := .empty
    exact h.push (Table.get_empty _) (fits_unkeyed _ _)
  waiting := by
    intro timestamp depth id
    constructor
    · intro hmem
      exact absurd (Prod.mk.inj (toLex_inj.mp (Finset.mem_singleton.mp hmem))).1 (keyed_ne_unkeyed _ _)
    · rintro ⟨⟨v, hv⟩, -⟩
      cases hv
  staged h := absurd rfl h

theorem Told.start : Told ([] : List Label) :=
  ⟨List.nodup_nil, List.nodup_nil, fun _ h => (by cases h), .nil⟩

/-- Discovery is still going on, so no payload phase has begun: its entry would not have been the least. -/
theorem Law.discovering (h : Law s trace) {id : ShortEventId} (hmem : toLex (unkeyed, id) ∈ s.queue) :
    payloadIds trace = [] := by
  by_contra hne
  exact h.staged hne id hmem

/-- An entry without a priority was not obtained. -/
theorem Law.unfound (h : Law s trace) {id : ShortEventId} (hmem : toLex (unkeyed, id) ∈ s.queue) :
    id ∉ foundIds trace := by
  intro hfound
  obtain ⟨v, timestamp, depth, hv⟩ := mem_foundIds.mp hfound
  have hkeyed := h.waiting.mpr ⟨⟨v, hv⟩, by rw [h.discovering hmem]; exact List.not_mem_nil⟩
  exact keyed_ne_unkeyed _ _ (h.paired.single hkeyed hmem)

/-- A payload phase takes the entry out. -/
theorem Law.payload (h : Law s trace) {timestamp depth : ℕ} {id : ShortEventId} {item : QueueItemData}
    (hnext : Next s (keyed timestamp depth) id item) (request : Option VerifiedEvent)
    (hqueue : s'.queue = (s.pop (keyed timestamp depth) id).queue)
    (hindex : s'.inQueue = (s.pop (keyed timestamp depth) id).inQueue) :
    Law s' (trace ++ [.payload id request]) where
  paired := by
    rw [hqueue, hindex]
    exact h.paired.pop hnext.mem
  waiting := by
    intro timestamp' depth' id'
    have hids : payloadIds (trace ++ [.payload id request]) = payloadIds trace ++ [id] := by simp
    rw [hqueue, hids]
    unfold Download.pop
    rw [mem_erase_lex, h.waiting, List.mem_append, List.mem_singleton, not_or]
    constructor
    · rintro ⟨hne, ⟨v, hv⟩, hnot⟩
      refine ⟨⟨v, List.mem_append_left _ hv⟩, hnot, ?_⟩
      rintro rfl
      exact hne (h.paired.single (h.waiting.mpr ⟨⟨v, hv⟩, hnot⟩) hnext.mem) rfl
    · rintro ⟨⟨v, hv⟩, hnot, hne⟩
      rcases List.mem_append.mp hv with hv | hv
      · exact ⟨fun _ => hne, ⟨v, hv⟩, hnot⟩
      · cases List.mem_singleton.mp hv
  staged := by
    intro _ id' hmem
    rw [hqueue] at hmem
    exact absurd (hnext.least _ (Finset.mem_of_mem_erase hmem)) (not_le_of_gt (unkeyed_lt _ _ _ _))

theorem Told.payload (ht : Told trace) (h : Law s trace) {timestamp depth : ℕ} {id : ShortEventId}
    {item : QueueItemData} (hnext : Next s (keyed timestamp depth) id item) (request : Option VerifiedEvent) :
    Told (trace ++ [.payload id request]) := by
  have hids : payloadIds (trace ++ [.payload id request]) = payloadIds trace ++ [id] := by simp
  have hfound : foundIds (trace ++ [.payload id request]) = foundIds trace := by simp
  obtain ⟨⟨v, hv⟩, hnot⟩ := h.waiting.mp hnext.mem
  refine ⟨by rw [hfound]; exact ht.found_once, ?_, ?_, ht.staged.snoc fun hcon => by cases hcon⟩
  · rw [hids]
    exact List.nodup_append.mpr ⟨ht.payload_once, List.nodup_singleton _, fun a ha b hb hab =>
      hnot (List.mem_singleton.mp hb ▸ hab ▸ ha)⟩
  · rw [hids, hfound]
    intro id' hmem
    rcases List.mem_append.mp hmem with hmem | hmem
    · exact ht.payload_found id' hmem
    · rw [List.mem_singleton.mp hmem]
      exact mem_foundIds.mpr ⟨v, timestamp, depth, hv⟩

theorem Law.missed (h : Law s trace) {id : ShortEventId} {item : QueueItemData} (hnext : Next s unkeyed id item)
    (db : Database) : Law ((s.pop unkeyed id).onto db) (trace ++ [.missed id]) where
  paired := h.paired.pop hnext.mem
  waiting := by
    intro timestamp depth id'
    unfold Download.onto Download.pop
    have hids : payloadIds (trace ++ [.missed id]) = payloadIds trace := by simp
    rw [mem_erase_lex, h.waiting, hids]
    simp [keyed_ne_unkeyed]
  staged := by
    intro hne
    rw [payloadIds_append, h.discovering hnext.mem] at hne
    exact absurd rfl hne

theorem file_paired (h : Paired Fits s.queue s.inQueue) {id : ShortEventId} {item : QueueItemData}
    (hnext : Next s unkeyed id item) (db : Database) (o : Obtained) :
    Paired Fits (((s.pop unkeyed id).onto db).file id item o).queue
      (((s.pop unkeyed id).onto db).file id item o).inQueue := by
  refine (h.pop hnext.mem).push (Table.get_remove_self ..) ⟨?_, fun _ => rfl⟩
  simp

/-- **The queue and its table stay in step**, also when the call stops. -/
theorem Moved.paired (h : Moved env author s turn s' shown) (hpaired : Paired Fits s.queue s.inQueue) :
    Paired Fits s'.queue s'.inQueue := by
  cases h with
  | finished => exact hpaired
  | unwanted hnext => exact hpaired.pop hnext.mem
  | refused hnext => exact hpaired.pop hnext.mem
  | read hnext => exact hpaired.pop hnext.mem
  | failed hnext => exact hpaired.pop hnext.mem
  | missed hnext => exact hpaired.pop hnext.mem
  | left hnext => exact file_paired hpaired hnext _ _
  | expanded hnext => exact queueParents_paired (file_paired hpaired hnext _ _)

/-- **An envelope that was obtained** is filed under its priority, which is computed from its row at this moment.
-/
theorem Law.file (h : Law s trace) {id : ShortEventId} {item : QueueItemData} (hnext : Next s unkeyed id item)
    (db : Database) (o : Obtained) :
    Law (((s.pop unkeyed id).onto db).file id item o)
      (trace ++ [.found id o.event (min item.childTimestamp o.event.event.timestamp) item.depth]) where
  paired := file_paired h.paired hnext db o
  waiting := by
    intro timestamp depth id'
    have hids : payloadIds (trace ++ [.found id o.event (min item.childTimestamp o.event.event.timestamp)
        item.depth]) = [] := by
      simp [h.discovering hnext.mem]
    unfold Download.file Download.onto Download.pop
    rw [Finset.mem_insert, mem_erase_lex, h.waiting, hids, h.discovering hnext.mem, toLex_inj, Prod.mk.injEq,
      keyed_inj]
    simp only [List.mem_append, List.mem_singleton, Label.found.injEq]
    constructor
    · rintro (⟨⟨rfl, rfl⟩, rfl⟩ | ⟨-, ⟨v, hv⟩, -⟩)
      · exact ⟨⟨o.event, .inr ⟨rfl, rfl, rfl, rfl⟩⟩, List.not_mem_nil⟩
      · exact ⟨⟨v, .inl hv⟩, List.not_mem_nil⟩
    · rintro ⟨⟨v, hv | ⟨rfl, rfl, rfl, rfl⟩⟩, -⟩
      · exact .inr ⟨fun hcon => absurd hcon (keyed_ne_unkeyed _ _), ⟨v, hv⟩, List.not_mem_nil⟩
      · exact .inl ⟨⟨rfl, rfl⟩, rfl⟩
  staged := by
    intro hne
    rw [payloadIds_append, h.discovering hnext.mem] at hne
    exact absurd rfl hne

theorem Told.file (ht : Told trace) (h : Law s trace) {id : ShortEventId} (hmem : toLex (unkeyed, id) ∈ s.queue)
    (v : VerifiedEvent) (timestamp depth : ℕ) : Told (trace ++ [.found id v timestamp depth]) := by
  have hids : payloadIds (trace ++ [.found id v timestamp depth]) = payloadIds trace := by simp
  have hfound : foundIds (trace ++ [.found id v timestamp depth]) = foundIds trace ++ [id] := by simp
  refine ⟨?_, by rw [hids]; exact ht.payload_once, ?_, ht.staged.snoc fun _ => h.discovering hmem⟩
  · rw [hfound]
    exact List.nodup_append.mpr ⟨ht.found_once, List.nodup_singleton _, fun a ha b hb hab =>
      h.unfound hmem (List.mem_singleton.mp hb ▸ hab ▸ ha)⟩
  · rw [hids, hfound]
    exact fun id' hid => List.mem_append_left _ (ht.payload_found id' hid)

/-- A label that is neither an envelope nor a payload phase. -/
theorem Told.aside (ht : Told trace) {label : Label} (hlabel : label.found? = none ∧ label.payload? = none)
    (hnone : payloadIds trace = []) : Told (trace ++ [label]) := by
  have hids : payloadIds (trace ++ [label]) = payloadIds trace := by
    rw [payloadIds_append]
    simp [payloadIds, hlabel.2]
  have hfound : foundIds (trace ++ [label]) = foundIds trace := by
    rw [foundIds_append]
    simp [foundIds, hlabel.1]
  exact ⟨by rw [hfound]; exact ht.found_once, by rw [hids]; exact ht.payload_once,
    by rw [hids, hfound]; exact ht.payload_found, ht.staged.snoc fun _ => hnone⟩

/-- Queueing parents adds entries without a priority only. -/
theorem Law.expand (h : Law s trace) (timestamp depth : ℕ) (parents : List ShortEventId) (id : ShortEventId)
    (v : VerifiedEvent) (hnone : payloadIds trace = []) :
    Law (parents.foldl (Download.queueParent timestamp depth) s) (trace ++ [.expanded id v]) where
  paired := queueParents_paired h.paired
  waiting := by
    intro timestamp' depth' id'
    have hids : payloadIds (trace ++ [.expanded id v]) = payloadIds trace := by simp
    rw [queueParents_keyed, h.waiting, hids]
    simp
  staged := by
    intro hne
    rw [payloadIds_append, hnone] at hne
    exact absurd rfl hne

/-- **One iteration** keeps what was told, and the law as long as the loop goes on. When it stops, what was told
remains. -/
theorem Moved.keeps (h : Moved env author s turn s' shown) (hlaw : Law s trace) (htold : Told trace) :
    Told (trace ++ shown) ∧ (s'.result = none → Law s' (trace ++ shown)) := by
  cases h with
  | finished => exact ⟨by rwa [List.append_nil], fun hrunning => by cases hrunning⟩
  | unwanted hnext => exact ⟨htold.payload hlaw hnext _, fun _ => hlaw.payload hnext _ rfl rfl⟩
  | refused hnext => exact ⟨htold.payload hlaw hnext _, fun hrunning => by cases hrunning⟩
  | read hnext => exact ⟨htold.payload hlaw hnext _, fun _ => hlaw.payload hnext _ rfl rfl⟩
  | failed => exact ⟨by rwa [List.append_nil], fun hrunning => by cases hrunning⟩
  | missed hnext => exact ⟨htold.aside ⟨rfl, rfl⟩ (hlaw.discovering hnext.mem), fun _ => hlaw.missed hnext _⟩
  | left hnext => exact ⟨htold.file hlaw hnext.mem _ _ _, fun _ => hlaw.file hnext _ _⟩
  | expanded hnext =>
    have hnone : ∀ id v timestamp depth, payloadIds (trace ++ [.found id v timestamp depth]) = [] := by
      intro id v timestamp depth
      simp [hlaw.discovering hnext.mem]
    rw [List.append_cons]
    exact ⟨(htold.file hlaw hnext.mem _ _ _).aside ⟨rfl, rfl⟩ (hnone ..),
      fun _ => (hlaw.file hnext _ _).expand _ _ _ _ _ (hnone ..)⟩

/-- An envelope is obtained once, so it has one priority. -/
theorem Told.found_unique (h : Told trace) {id : ShortEventId} {v v' : VerifiedEvent}
    {timestamp depth timestamp' depth' : ℕ} (hmem : .found id v timestamp depth ∈ trace)
    (hmem' : .found id v' timestamp' depth' ∈ trace) : timestamp = timestamp' ∧ depth = depth' := by
  by_contra hne
  have honce : trace.Pairwise fun a b => ∀ i ∈ a.found?, ∀ j ∈ b.found?, i ≠ j :=
    List.pairwise_filterMap.mp h.found_once
  have hsymm : Std.Symm fun a b : Label => ∀ i ∈ a.found?, ∀ j ∈ b.found?, i ≠ j :=
    ⟨fun _ _ hab i hi j hj => (hab j hj i hi).symm⟩
  have hdiff : Label.found id v timestamp depth ≠ .found id v' timestamp' depth' := by
    intro heq
    cases heq
    exact hne ⟨rfl, rfl⟩
  exact honce.forall hmem hmem' hdiff id rfl id rfl rfl

/-- What was obtained was obtained before the first payload phase, whenever it is looked at. -/
theorem Told.found_before (h : Told trace) {before after : List Label} {c id : ShortEventId}
    {request : Option VerifiedEvent} (hsplit : trace = before ++ .payload c request :: after) {v : VerifiedEvent}
    {timestamp depth : ℕ} (hmem : .found id v timestamp depth ∈ trace) :
    .found id v timestamp depth ∈ before := by
  rw [hsplit] at hmem
  rcases List.mem_append.mp hmem with hmem | hmem
  · exact hmem
  · rcases List.mem_cons.mp hmem with heq | hmem
    · cases heq
    · obtain ⟨between, rest, rfl⟩ := List.append_of_mem hmem
      have hstaged : trace = (before ++ .payload c request :: between) ++ .found id v timestamp depth :: rest := by
        rw [hsplit]
        simp
      have hnone := h.staged _ _ _ hstaged rfl
      rw [payloadIds_append] at hnone
      cases (List.append_eq_nil_iff.mp hnone).2

end Rostra.DownloadEvents
