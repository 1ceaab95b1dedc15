/-
# What an insertion does to the content tables

`insert_event_tx` changes the content of at most two events: it deletes the content of one stored
parent, and it gives the new event its first state.  `Inserted` says exactly that, table by table.
Every result about states, stored bytes or the fetch schedule starts from it, and none of them
looks into the function again; the graph tables have their own file.

The bytes that an insertion hands back to its caller are those of the deleted parent, when its content was
processed; the reversal of its projections depends on them.

The description is by tables and not by causes. A table is the one before with one row changed, or with none; which
of the two it is depends on the class of the parent and on the header. The counters are left out here, since what
they count is a matter of `Proofs/Books`.
-/
import Rostra.Proofs.Graph

namespace Rostra.Db

open Rostra Outcome

variable [Primitives]

omit [Primitives] in
/-- Content states belong to stored headers. So a new header starts without one. -/
def StatesStored (t : EventTables) : Prop :=
  ∀ id s, t.eventsContentState.get id = some s → ∃ e, t.events.get id = some e

omit [Primitives] in
/-- A header that is not stored has no content state. -/
theorem StatesStored.state_none {t : EventTables} (h : StatesStored t) {id : ShortEventId}
    (hnew : t.events.get id = none) : t.eventsContentState.get id = none := by
  cases hst : t.eventsContentState.get id with
  | none => rfl
  | some s =>
    obtain ⟨e, he⟩ := h _ _ hst
    rw [hnew] at he
    cases he

/-! ## 1. The loop over the parents

Only the auxiliary parent can be deleted, and only if the header says so. All other turns leave the content alone. -/

/-- The tables that belong to content, apart from the two that count. -/
structure ContentKept (t t' : EventTables) : Prop where
  idsFull : t'.idsFull = t.idsFull
  events : t'.events = t.events
  state : t'.eventsContentState = t.eventsContentState
  store : t'.contentStore = t.contentStore
  queue : t'.eventsContentMissing = t.eventsContentMissing

omit [Primitives] in
theorem ContentKept.refl (t : EventTables) : ContentKept t t := ⟨rfl, rfl, rfl, rfl, rfl⟩

omit [Primitives] in
theorem ContentKept.trans {t t' t'' : EventTables} (h : ContentKept t t') (h' : ContentKept t' t'') :
    ContentKept t t'' :=
  ⟨h'.idsFull.trans h.idsFull, h'.events.trans h.events, h'.state.trans h.state,
    h'.store.trans h.store, h'.queue.trans h.queue⟩

/-- The content of the stored parent `p` was deleted: its state and its schedule change, headers and bytes stay. -/
structure ParentDeleted (t t' : EventTables) (v : VerifiedEvent) (p : ShortEventId) (parent : Event) :
    Prop where
  stored : t.events.get p = some parent
  author : parent.author = v.event.author
  deletes : Event.Deletes v.event p
  idsFull : t'.idsFull = t.idsFull
  events : t'.events = t.events
  state : ∃ d, t'.eventsContentState = t.eventsContentState.insert p (.deleted d)
  store : t'.contentStore = t.contentStore
  queue : t'.eventsContentMissing =
    unscheduleTx (t.eventsContentState.get p) p t.eventsContentMissing

theorem ParentDeleted.trans {t t' t'' : EventTables} {v : VerifiedEvent} {p : ShortEventId}
    {parent : Event} (h : ParentDeleted t t' v p parent) (h' : ContentKept t' t'') :
    ParentDeleted t t'' v p parent := by
  obtain ⟨d, hd⟩ := h.state
  exact ⟨h.stored, h.author, h.deletes, h'.idsFull.trans h.idsFull, h'.events.trans h.events,
    ⟨d, h'.state.trans hd⟩, h'.store.trans h.store, h'.queue.trans h.queue⟩

/-- The bytes handed back for projection reversal: those of processed content. -/
def handedBack (t : EventTables) (p : ShortEventId) (parent : Event) : Option Bytes :=
  if (t.eventsContentState.get p).isNone then t.contentStore.get parent.contentHash else none

/-- What the loop over the parents did to content: nothing, or one parent was deleted and is reported. -/
inductive ScanEffect (t : EventTables) (v : VerifiedEvent) (s : ParentScan) : Prop
  | kept (h : ContentKept t s.ev) (hdp : s.deletedParent = none)
      (hrev : s.revertedParentContent = none)
  | deleted (p : ShortEventId) (parent : Event) (h : ParentDeleted t s.ev v p parent)
      (hdp : s.deletedParent = some p) (hrev : s.revertedParentContent = handedBack t p parent)

theorem ScanEffect.trans {t : EventTables} {v : VerifiedEvent} {s s' : ParentScan}
    (h : ScanEffect t v s) (hk : ContentKept s.ev s'.ev) (hdp : s'.deletedParent = s.deletedParent)
    (hrev : s'.revertedParentContent = s.revertedParentContent) : ScanEffect t v s' := by
  cases h with
  | kept h hdp' hrev' => exact .kept (h.trans hk) (hdp.trans hdp') (hrev.trans hrev')
  | deleted p parent h hdp' hrev' =>
    exact .deleted p parent (h.trans hk) (hdp.trans hdp') (hrev.trans hrev')

theorem ScanEffect.events {t : EventTables} {v : VerifiedEvent} {s : ParentScan}
    (h : ScanEffect t v s) : s.ev.events = t.events := by
  cases h with
  | kept h _ _ => exact h.events
  | deleted p parent h _ _ => exact h.events

/-- The new event is not among the stored ones, so the loop leaves its row alone. -/
theorem ScanEffect.state_self {t : EventTables} {v : VerifiedEvent} {s : ParentScan}
    (h : ScanEffect t v s) (hnew : t.events.get v.id = none) :
    s.ev.eventsContentState.get v.id = t.eventsContentState.get v.id := by
  cases h with
  | kept h _ _ => rw [h.state]
  | deleted p parent h _ _ =>
    obtain ⟨d, hd⟩ := h.state
    have hne : v.id ≠ p := by
      rintro rfl
      have := h.stored
      rw [hnew] at this
      cases this
    rw [hd, Table.get_insert_of_ne _ _ hne]

theorem missParentTx_effect (s : ParentScan) (v : VerifiedEvent) (p : ShortEventId) (isAux : Bool) :
    Ensures (missParentTx s v p isAux)
      (fun s' => ContentKept s.ev s'.ev ∧ s'.deletedParent = s.deletedParent ∧
        s'.revertedParentContent = s.revertedParentContent) (fun _ => True) :=
  (ensures_true _).bind fun _ _ => ⟨⟨rfl, rfl, rfl, rfl, rfl⟩, rfl, rfl⟩

theorem deleteParentTx_effect {s : ParentScan} {v : VerifiedEvent} {p : ShortEventId}
    {parent : Event} (he : s.ev.events.get p = some parent) (ha : parent.author = v.event.author)
    (hd : Event.Deletes v.event p) (hrev : s.revertedParentContent = none) :
    Ensures (deleteParentTx s v p parent)
      (fun s' => ParentDeleted s.ev s'.ev v p parent ∧ s'.deletedParent = some p ∧
        s'.revertedParentContent = handedBack s.ev p parent) (fun _ => True) := by
  unfold deleteParentTx
  refine (ensures_true _).bind fun by' _ => ?_
  refine (ensures_true _).bind fun rc _ => (ensures_true _).bind fun u _ => ?_
  refine ⟨⟨he, ha, hd, rfl, rfl, ⟨_, rfl⟩, rfl, rfl⟩, rfl, ?_⟩
  simp [handedBack, hrev]

/-- A turn for the previous parent, or for a parent that is not deleted, leaves content alone. -/
theorem processParentTx_kept (v : VerifiedEvent) (s : ParentScan) (o : Option ShortEventId)
    {isAux : Bool} (h : deletesParent v isAux = false) :
    Ensures (processParentTx v s (o, isAux))
      (fun s' => ContentKept s.ev s'.ev ∧ s'.deletedParent = s.deletedParent ∧
        s'.revertedParentContent = s.revertedParentContent) (fun _ => True) := by
  unfold processParentTx
  cases o with
  | none => exact ⟨.refl _, rfl, rfl⟩
  | some p =>
    have hvisit : Ensures (visitParentTx v s p isAux)
        (fun s' => ContentKept s.ev s'.ev ∧ s'.deletedParent = s.deletedParent ∧
          s'.revertedParentContent = s.revertedParentContent) (fun _ => True) := by
      unfold visitParentTx
      split
      · rw [if_neg (by simp [h])]
        exact ⟨.refl _, rfl, rfl⟩
      · exact missParentTx_effect s v p isAux
    refine hvisit.bind fun s' ⟨hk, hdp, hrev⟩ => ?_
    exact ⟨hk.trans ⟨rfl, rfl, rfl, rfl, rfl⟩, hdp, hrev⟩

/-- The turn for the auxiliary parent. -/
theorem processParentTx_aux (v : VerifiedEvent) (t : EventTables) :
    Ensures (processParentTx v { ev := t } (v.event.parentAux, true)) (ScanEffect t v)
      (fun _ => True) := by
  by_cases hflag : deletesParent v true = true
  · unfold processParentTx
    cases hp : v.event.parentAux with
    | none => exact .kept (.refl _) rfl rfl
    | some p =>
      have hd : Event.Deletes v.event p := by
        refine ⟨?_, hp⟩
        simpa [deletesParent] using hflag
      have hvisit : Ensures (visitParentTx v { ev := t } p true) (ScanEffect t v)
          (fun _ => True) := by
        unfold visitParentTx
        split
        · next parent ho =>
          obtain ⟨he, ha⟩ := ownParent?_eq_some.mp ho
          rw [if_pos hflag]
          refine (deleteParentTx_effect he ha hd rfl).mono (fun s' hs => ?_) fun _ h => h
          exact .deleted p parent hs.1 hs.2.1 hs.2.2
        · refine (missParentTx_effect _ v p true).mono (fun s' hs => ?_) fun _ h => h
          exact .kept hs.1 hs.2.1 hs.2.2
      -- only the head row is erased after the visit
      exact hvisit.bind fun s' hs => hs.trans ⟨rfl, rfl, rfl, rfl, rfl⟩ rfl rfl
  · refine (processParentTx_kept v _ _ (by simpa using hflag)).mono (fun s' hs => ?_) fun _ h => h
    exact .kept hs.1 hs.2.1 hs.2.2

/-- **The loop deletes the content of at most one parent.** -/
theorem parentIds_effect (v : VerifiedEvent) (t : EventTables) :
    Ensures ((parentIds v.event).foldlM (processParentTx v) { ev := t }) (ScanEffect t v)
      (fun _ => True) := by
  unfold parentIds
  split
  · rw [List.foldlM_cons]
    exact (processParentTx_aux v t).bind fun s hs => hs
  · rw [List.foldlM_cons]
    refine (processParentTx_aux v t).bind fun s hs => ?_
    rw [List.foldlM_cons]
    refine (processParentTx_kept v s v.event.parentPrev (by simp [deletesParent])).bind
      fun s' ⟨hk, hdp, hrev⟩ => ?_
    exact hs.trans hk hdp hrev

/-! ## 2. The whole insertion

Resolution, loop, header and first state, one after the other. A header that is here already ends the insertion
before any of them. -/

/-- The schedule without the row of a parent whose content was deleted. -/
def unscheduleParent (t : EventTables) : Option ShortEventId → Finset (Timestamp ×ₗ ShortEventId)
  | some p => unscheduleTx (t.eventsContentState.get p) p t.eventsContentMissing
  | none => t.eventsContentMissing

/-- **What the insertion of a new header does to content.** -/
structure Inserted (t t' : EventTables) (v : VerifiedEvent) (isDeleted : Bool)
    (deletedParent : Option ShortEventId) (reverted : Option Bytes) : Prop where
  events : t'.events = t.events.insert v.id v.event
  /-- The new event starts deleted, missing or (empty content) processed. -/
  state_self : if isDeleted then ∃ d, t'.eventsContentState.get v.id = some (.deleted d)
    else t'.eventsContentState.get v.id =
      if 0 < v.event.contentLen then some .freshMissing else t.eventsContentState.get v.id
  state_parent : ∀ p, deletedParent = some p → ∃ d, t'.eventsContentState.get p = some (.deleted d)
  state_other : ∀ id, id ≠ v.id → deletedParent ≠ some id →
    t'.eventsContentState.get id = t.eventsContentState.get id
  /-- A deleted parent is a stored event of the same author. -/
  parent : ∀ p, deletedParent = some p → ∃ e, t.events.get p = some e ∧
    e.author = v.event.author ∧ Event.Deletes v.event p ∧ reverted = handedBack t p e
  parent_none : deletedParent = none → reverted = none
  store : t'.contentStore = if isDeleted = false ∧ v.event.contentLen = 0 ∧
      t.contentStore.get v.event.contentHash = none
    then t.contentStore.insert v.event.contentHash [] else t.contentStore
  queue : t'.eventsContentMissing = if isDeleted = false ∧ 0 < v.event.contentLen ∧
      t.contentStore.get v.event.contentHash = none
    then insert (toLex (0, v.id)) (unscheduleParent t deletedParent)
    else unscheduleParent t deletedParent

/-- No stored bytes are replaced. -/
theorem Inserted.store_kept {t t' : EventTables} {v : VerifiedEvent} {isDeleted : Bool}
    {deletedParent : Option ShortEventId} {reverted : Option Bytes}
    (h : Inserted t t' v isDeleted deletedParent reverted) {k : ContentHash} {b : Bytes}
    (hb : t.contentStore.get k = some b) : t'.contentStore.get k = some b := by
  rw [h.store]
  split
  · next hc =>
    refine (Table.get_insert_of_ne _ _ ?_).trans hb
    rintro rfl
    rw [hc.2.2] at hb
    cases hb
  · exact hb

/-- What resolving the missing row does to content: it may mark the new event deleted. -/
structure Taken (t t₀ : EventTables) (v : VerifiedEvent) (isDeleted : Bool) : Prop where
  idsFull : t₀.idsFull = t.idsFull
  events : t₀.events = t.events
  store : t₀.contentStore = t.contentStore
  queue : t₀.eventsContentMissing = t.eventsContentMissing
  rc : t₀.contentRc = t.contentRc
  usage : t₀.idsDataUsage = t.idsDataUsage
  state : if isDeleted then
      ∃ d, t₀.eventsContentState = t.eventsContentState.insert v.id (.deleted d)
    else t₀.eventsContentState = t.eventsContentState

theorem takeMissing_taken (t : EventTables) (v : VerifiedEvent) :
    Taken t (takeMissing t v).1 v (takeMissing t v).2.2 := by
  cases hrow : t.eventsMissing.get (v.event.author, v.id) with
  | none =>
    simp only [takeMissing, hrow]
    exact ⟨rfl, rfl, rfl, rfl, rfl, rfl, rfl⟩
  | some row =>
    cases hd : row.deletedBy with
    | none =>
      simp only [takeMissing, hrow, hd]
      exact ⟨rfl, rfl, rfl, rfl, rfl, rfl, rfl⟩
    | some d =>
      simp only [takeMissing, hrow, hd]
      exact ⟨rfl, rfl, rfl, rfl, rfl, rfl, d, rfl⟩

theorem Taken.state_other {t t₀ : EventTables} {v : VerifiedEvent} {isDeleted : Bool}
    (h : Taken t t₀ v isDeleted) {id : ShortEventId} (hid : id ≠ v.id) :
    t₀.eventsContentState.get id = t.eventsContentState.get id := by
  have hst := h.state
  split at hst
  · obtain ⟨d, hd⟩ := hst
    rw [hd, Table.get_insert_of_ne _ _ hid]
  · rw [hst]

/-- The first state of the new event. -/
structure Started (t t' : EventTables) (v : VerifiedEvent) (isDeleted : Bool) : Prop where
  idsFull : t'.idsFull = t.idsFull
  events : t'.events = t.events
  state : t'.eventsContentState = if isDeleted = false ∧ 0 < v.event.contentLen
    then t.eventsContentState.insert v.id .freshMissing else t.eventsContentState
  store : t'.contentStore = if isDeleted = false ∧ v.event.contentLen = 0 ∧
      t.contentStore.get v.event.contentHash = none
    then t.contentStore.insert v.event.contentHash [] else t.contentStore
  queue : t'.eventsContentMissing = if isDeleted = false ∧ 0 < v.event.contentLen ∧
      t.contentStore.get v.event.contentHash = none
    then insert (toLex (0, v.id)) t.eventsContentMissing else t.eventsContentMissing

theorem startContentTx_started (t : EventTables) (v : VerifiedEvent) (isDeleted : Bool) :
    Ensures (startContentTx t v isDeleted) (fun t' => Started t t' v isDeleted) (fun _ => True) := by
  unfold startContentTx
  split
  · next hd =>
    refine (ensures_true _).bind fun usage _ => ?_
    exact ⟨rfl, rfl, by simp [hd], by simp [hd], by simp [hd]⟩
  · next hd =>
    have hd : isDeleted = false := by simpa using hd
    split
    · next hlen =>
      refine (ensures_true _).bind fun rc _ => (ensures_true _).bind fun usage _ => ?_
      exact ⟨rfl, rfl, by simp [hd, hlen], by simp [hlen.ne'], by simp [hd, hlen]⟩
    · next hlen =>
      have hlen : v.event.contentLen = 0 := by omega
      refine (ensures_true _).bind fun rc _ => (ensures_true _).bind fun usage _ => ?_
      refine (ensures_true _).bind fun usage' _ => ?_
      exact ⟨rfl, rfl, by simp [hlen], by simp [hd, hlen], by simp [hlen]⟩

/-- The phases put together. -/
theorem inserted_of_phases {t t₀ t₂ t' : EventTables} {v : VerifiedEvent} {isDeleted : Bool}
    {s : ParentScan} (hnew : t.events.get v.id = none) (htake : Taken t t₀ v isDeleted)
    (hscan : ScanEffect t₀ v s)
    (hhead : t₂ = { s.ev with
      events := s.ev.events.insert v.id v.event
      eventsByTime := insert (v.event.timestamp, v.id) s.ev.eventsByTime
      idsDataUsage := t₂.idsDataUsage })
    (hstart : Started t₂ t' v isDeleted) :
    Inserted t t' v isDeleted s.deletedParent s.revertedParentContent := by
  have htaken : ∀ id, id ≠ v.id → t₀.eventsContentState.get id = t.eventsContentState.get id :=
    fun id hid => htake.state_other hid
  have hstarted : ∀ id, id ≠ v.id → t'.eventsContentState.get id = s.ev.eventsContentState.get id := by
    intro id hid
    rw [hstart.state, hhead]
    split
    · exact Table.get_insert_of_ne _ _ hid
    · rfl
  have hself : s.ev.eventsContentState.get v.id = t₀.eventsContentState.get v.id →
      if isDeleted then ∃ d, t'.eventsContentState.get v.id = some (.deleted d)
      else t'.eventsContentState.get v.id =
        if 0 < v.event.contentLen then some .freshMissing else t.eventsContentState.get v.id := by
    intro hs
    have h := htake.state
    rw [hstart.state, hhead]
    cases isDeleted with
    | true =>
      obtain ⟨d, hd⟩ := h
      exact ⟨d, by simp [hs, hd]⟩
    | false =>
      simp only [Bool.false_eq_true, if_false] at h
      by_cases hlen : 0 < v.event.contentLen
      · simp [hlen]
      · simp [hlen, hs, h]
  have hev₂ : t₂.events = s.ev.events.insert v.id v.event := by rw [hhead]
  have hstore₂ : t₂.contentStore = s.ev.contentStore := by rw [hhead]
  have hqueue₂ : t₂.eventsContentMissing = s.ev.eventsContentMissing := by rw [hhead]
  cases hscan with
  | kept h hdp hrev =>
    have hstore : t₂.contentStore = t.contentStore := by rw [hstore₂, h.store, htake.store]
    have hqueue : t₂.eventsContentMissing = t.eventsContentMissing := by
      rw [hqueue₂, h.queue, htake.queue]
    rw [hdp, hrev]
    constructor
    case events => rw [hstart.events, hev₂, h.events, htake.events]
    case state_self => exact hself (by rw [h.state])
    case state_parent => intro p hp; cases hp
    case state_other => intro id hid _; rw [hstarted id hid, h.state, htaken id hid]
    case parent => intro p hp; cases hp
    case parent_none => exact fun _ => rfl
    case store => rw [hstart.store, hstore]
    case queue => rw [hstart.queue, hstore, hqueue, unscheduleParent]
  | deleted p parent h hdp hrev =>
    have hp : t.events.get p = some parent := by rw [← htake.events]; exact h.stored
    have hne : p ≠ v.id := by rintro rfl; rw [hnew] at hp; cases hp
    obtain ⟨d, hd⟩ := h.state
    have hstore : t₂.contentStore = t.contentStore := by rw [hstore₂, h.store, htake.store]
    have hqueue : t₂.eventsContentMissing =
        unscheduleTx (t.eventsContentState.get p) p t.eventsContentMissing := by
      rw [hqueue₂, h.queue, htake.queue, htaken p hne]
    rw [hdp, hrev]
    constructor
    case events => rw [hstart.events, hev₂, h.events, htake.events]
    case state_self => exact hself (by rw [hd, Table.get_insert_of_ne _ _ hne.symm])
    case state_parent =>
      intro q hq
      cases hq
      exact ⟨d, by rw [hstarted p hne, hd, Table.get_insert_self]⟩
    case state_other =>
      intro id hid hpid
      rw [hstarted id hid, hd, Table.get_insert_of_ne _ _ (fun h => hpid (by rw [h])), htaken id hid]
    case parent =>
      intro q hq
      cases hq
      refine ⟨parent, hp, h.author, h.deletes, ?_⟩
      rw [handedBack, handedBack, htaken p hne, htake.store]
    case parent_none => intro hnone; cases hnone
    case store => rw [hstart.store, hstore]
    case queue => rw [hstart.queue, hstore, hqueue, unscheduleParent]

/-- Identities are registered before the phases run. -/
theorem idsFull_of_phases {t t₀ t₂ t' : EventTables} {v : VerifiedEvent} {isDeleted : Bool}
    {s : ParentScan} (htake : Taken t t₀ v isDeleted) (hscan : ScanEffect t₀ v s)
    (hhead : t₂.idsFull = s.ev.idsFull) (hstart : Started t₂ t' v isDeleted) :
    t'.idsFull = t.idsFull := by
  cases hscan with
  | kept h _ _ => rw [hstart.idsFull, hhead, h.idsFull, htake.idsFull]
  | deleted p parent h _ _ => rw [hstart.idsFull, hhead, h.idsFull, htake.idsFull]

/-- The two ways an insertion can end. -/
inductive InsertEffect (t : EventTables) (v : VerifiedEvent) (r : EventTables × InsertEventOutcome) :
    Prop
  | present (e : Event) (he : t.events.get v.id = some e)
      (hreg : register t.idsFull v.event.author = .ok r.1.idsFull)
      (ht : r.1 = { t with idsFull := r.1.idsFull }) (ho : r.2 = .alreadyPresent)
  | new (hnew : t.events.get v.id = none)
      (hreg : register t.idsFull v.event.author = .ok r.1.idsFull)
      (wasMissing isDeleted : Bool) (deletedParent : Option ShortEventId) (reverted : Option Bytes)
      (missingParents : List ShortEventId)
      (h : Inserted t r.1 v isDeleted deletedParent reverted)
      (ho : r.2 = .inserted wasMissing isDeleted deletedParent reverted missingParents)

/-- **What `insert_event_tx` does, present or new.** -/
theorem insertEventTx_effect (t : EventTables) (v : VerifiedEvent) :
    Ensures (insertEventTx t v) (InsertEffect t v) (fun _ => True) := by
  unfold insertEventTx
  refine (ensures_iff.mpr ⟨fun ids h => h, fun _ _ => trivial⟩ :
    Ensures (register t.idsFull v.event.author)
      (fun ids => register t.idsFull v.event.author = .ok ids) (fun _ => True)).bind
    fun ids hids => ?_
  split
  · next hs =>
    obtain ⟨e, he⟩ := Option.isSome_iff_exists.mp hs
    exact InsertEffect.present e he hids rfl rfl
  · next hs =>
    have hnew : t.events.get v.id = none := by simpa using hs
    have htake := takeMissing_taken { t with idsFull := ids } v
    unfold insertNewEventTx
    refine (parentIds_effect v _).bind fun s hscan => ?_
    refine ((storeHeaderTx_ensures _ _).mono (fun _ h => h) fun _ _ => trivial).bind fun t₂ h₂ => ?_
    refine (startContentTx_started _ _ _).bind fun t₃ h₃ => ?_
    have hfull : t₃.idsFull = ids := idsFull_of_phases htake hscan (by rw [h₂]) h₃
    have h := inserted_of_phases (t := { t with idsFull := ids }) hnew htake hscan h₂ h₃
    -- the description does not read the registered identities
    exact InsertEffect.new hnew (by rw [hids, hfull]) _ _ _ _ _
      ⟨h.events, h.state_self, h.state_parent, h.state_other, h.parent, h.parent_none, h.store,
        h.queue.trans (by cases s.deletedParent <;> rfl)⟩ rfl

theorem InsertEffect.statesStored {t : EventTables} {v : VerifiedEvent}
    {r : EventTables × InsertEventOutcome} (h : InsertEffect t v r) (hs : StatesStored t) :
    StatesStored r.1 := by
  cases h with
  | present e he hreg ht ho =>
    rw [ht]
    exact hs
  | new hnew hreg wm isD dp rev mp h ho =>
    intro id s hst
    rw [h.events]
    by_cases hid : id = v.id
    · exact ⟨v.event, by rw [hid, Table.get_insert_self]⟩
    · rw [Table.get_insert_of_ne _ _ hid]
      by_cases hdp : dp = some id
      · obtain ⟨e, he, -⟩ := h.parent id hdp
        exact ⟨e, he⟩
      · rw [h.state_other id hid hdp] at hst
        exact hs id s hst

end Rostra.Db
