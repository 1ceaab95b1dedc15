/-
# The header graph is canonical

`insert_event_tx` maintains three graph tables incrementally, in an order it does not control:
children may arrive before parents, two parents may coincide, a parent id may be stored under
another author, and deletions may precede what they delete.  The invariant `Canonical` says that
none of this shows: heads, missing parents and deletion attribution are functions of the set of
stored headers.

* `deleterOrders` is the set of direct deleters of one parent, as keys of the precedence order;
  the attribution is its greatest element (`deleter`).
* `mergeDeletedByTx_eq` is the heart of it: merging a candidate into the stored attribution is
  one more element in that set.  It needs the attributed deleter to be stored, which is what makes
  `MissingDeletionAttribution` unreachable.
* `Scanned` describes the loop over the parents after some of them were visited
  (`processParentTx_scanned`), and `insertEventTx_canonical` puts the phases together.

There is no induction over the graph anywhere. Each table is a function of the headers that looks one step far, and
so one insertion changes it in a way that can be written down.
-/
import Rostra.Proofs.Basic

namespace Rostra.Db

open Rostra Outcome

/-! ## 1. What the set of headers determines

The three functions, and how they change with one header more. -/

abbrev Headers := Table ShortEventId Event

/-- `e` names `p` as one of its parents. -/
def Event.Names (e : Event) (p : ShortEventId) : Prop := e.parentPrev = some p ∨ e.parentAux = some p

/-- `e` asks for the content of `p` to be deleted. -/
def Event.Deletes (e : Event) (p : ShortEventId) : Prop :=
  e.isDeleteParentAuxContentSet = true ∧ e.parentAux = some p

instance (e : Event) (p : ShortEventId) : Decidable (Event.Names e p) :=
  inferInstanceAs (Decidable (_ ∨ _))

instance (e : Event) (p : ShortEventId) : Decidable (Event.Deletes e p) :=
  inferInstanceAs (Decidable (_ ∧ _))

/-- `a` has an event stored under the id `p`. -/
def Owned (h : Headers) (a : RostraId) (p : ShortEventId) : Prop :=
  ∃ e, h.get p = some e ∧ e.author = a

/-- Some stored event of `a` names `p` as a parent. -/
def Named (h : Headers) (a : RostraId) (p : ShortEventId) : Prop :=
  ∃ id e, h.get id = some e ∧ e.author = a ∧ Event.Names e p

/-- The stored direct deleters of `(a, p)`, by precedence. -/
def deleterOrders (h : Headers) (a : RostraId) (p : ShortEventId) : Finset EventOrder :=
  (h.keys.filter fun id => (h.get id).any fun e => e.author = a ∧ Event.Deletes e p).image
    fun id => toLex (((h.get id).map (·.timestamp)).getD 0, id)

/-- The winning deleter. -/
def deleter (h : Headers) (a : RostraId) (p : ShortEventId) : Option ShortEventId :=
  (Table.greatest (deleterOrders h a p)).map fun o => (ofLex o).2

theorem mem_deleterOrders {h : Headers} {a : RostraId} {p : ShortEventId} {o : EventOrder} :
    o ∈ deleterOrders h a p ↔
      ∃ e, h.get (ofLex o).2 = some e ∧ e.timestamp = (ofLex o).1 ∧ e.author = a ∧
        Event.Deletes e p := by
  simp only [deleterOrders, Finset.mem_image, Finset.mem_filter, Table.mem_keys]
  constructor
  · rintro ⟨id, ⟨⟨e, he⟩, hd⟩, rfl⟩
    rw [he] at hd
    simp only [Option.any_some, decide_eq_true_eq] at hd
    exact ⟨e, by simpa using he, by simp [he], hd.1, hd.2⟩
  · rintro ⟨e, he, hts, ha, hd⟩
    refine ⟨(ofLex o).2, ⟨⟨e, he⟩, by simp [he, ha, hd]⟩, ?_⟩
    rw [he]
    simp [hts]

/-- Without a deleter there is no attribution. -/
theorem deleter_eq_none {h : Headers} {a : RostraId} {p : ShortEventId} (hn : ¬Named h a p) :
    deleter h a p = none := by
  have hempty : deleterOrders h a p = ∅ := by
    refine Finset.eq_empty_iff_forall_notMem.mpr fun o ho => hn ?_
    obtain ⟨e, he, -, ha, hd⟩ := mem_deleterOrders.mp ho
    exact ⟨_, e, he, ha, .inr hd.2⟩
  rw [deleter, hempty, Table.greatest_empty]
  rfl

/-- A new header is one more deleter, or none. -/
theorem deleterOrders_insert {h : Headers} {id : ShortEventId} {e : Event} (hnew : h.get id = none)
    (a : RostraId) (p : ShortEventId) :
    deleterOrders (h.insert id e) a p =
      if e.author = a ∧ Event.Deletes e p then
        insert (toLex (e.timestamp, id)) (deleterOrders h a p)
      else deleterOrders h a p := by
  have hkey : ∀ o, o ∈ deleterOrders (h.insert id e) a p ↔
      (o = toLex (e.timestamp, id) ∧ e.author = a ∧ Event.Deletes e p) ∨ o ∈ deleterOrders h a p := by
    intro o
    rw [mem_deleterOrders, mem_deleterOrders]
    by_cases ho : (ofLex o).2 = id
    · rw [ho, Table.get_insert_self, hnew]
      constructor
      · rintro ⟨e', he', hts, ha, hd⟩
        cases he'
        exact .inl ⟨by rw [hts, ← ho]; rfl, ha, hd⟩
      · rintro (⟨rfl, ha, hd⟩ | ⟨e', he', -⟩)
        · exact ⟨e, rfl, rfl, ha, hd⟩
        · cases he'
    · rw [Table.get_insert_of_ne _ _ ho]
      constructor
      · exact .inr
      · rintro (⟨rfl, -⟩ | h)
        · exact absurd rfl ho
        · exact h
  ext o
  rw [hkey]
  split
  · next hd => simp [Finset.mem_insert, hd]
  · next hd => simp [hd]

theorem owned_insert {h : Headers} {id : ShortEventId} {e : Event} (hnew : h.get id = none)
    (a : RostraId) (p : ShortEventId) :
    Owned (h.insert id e) a p ↔ Owned h a p ∨ (p = id ∧ e.author = a) := by
  unfold Owned
  by_cases hp : p = id
  · subst hp
    simp [hnew]
  · simp [Table.get_insert_of_ne _ _ hp, hp]

theorem named_insert {h : Headers} {id : ShortEventId} {e : Event} (hnew : h.get id = none)
    (a : RostraId) (p : ShortEventId) :
    Named (h.insert id e) a p ↔ Named h a p ∨ (e.author = a ∧ Event.Names e p) := by
  constructor
  · rintro ⟨id', e', he', ha, hp⟩
    by_cases hid : id' = id
    · subst hid
      rw [Table.get_insert_self] at he'
      cases he'
      exact .inr ⟨ha, hp⟩
    · rw [Table.get_insert_of_ne _ _ hid] at he'
      exact .inl ⟨id', e', he', ha, hp⟩
  · rintro (⟨id', e', he', ha, hp⟩ | ⟨ha, hp⟩)
    · have hid : id' ≠ id := by rintro rfl; rw [hnew] at he'; cases he'
      exact ⟨id', e', by rw [Table.get_insert_of_ne _ _ hid]; exact he', ha, hp⟩
    · exact ⟨id, e, Table.get_insert_self .., ha, hp⟩

/-! ## 2. The invariant

`Canonical` compares the tables with these functions. -/

/-- **The invariant**: the graph tables say about the stored headers exactly what the headers say. A row of
`events_missing` also carries the attribution that its event will have when it arrives. -/
structure Canonical (t : EventTables) : Prop where
  heads : ∀ a p, (a, p) ∈ t.eventsHeads ↔ Owned t.events a p ∧ ¬Named t.events a p
  missing : ∀ a p r, t.eventsMissing.get (a, p) = some r ↔
    Named t.events a p ∧ ¬Owned t.events a p ∧ r.deletedBy = deleter t.events a p
  byTime : ∀ ts id, (ts, id) ∈ t.eventsByTime ↔ ∃ e, t.events.get id = some e ∧ e.timestamp = ts
  deleted : ∀ id d, t.eventsContentState.get id = some (.deleted d) ↔
    ∃ e, t.events.get id = some e ∧ deleter t.events e.author id = some d

theorem canonical_empty : Canonical {} := by
  refine ⟨fun a p => ?_, fun a p r => ?_, fun ts id => ?_, fun id d => ?_⟩
  · simp [Owned]
  · simp [Named]
  · simp
  · simp

/-- A change that leaves the graph tables and the deleted states alone. -/
theorem Canonical.congr {t t' : EventTables} (h : Canonical t) (hev : t'.events = t.events)
    (hh : t'.eventsHeads = t.eventsHeads) (hm : t'.eventsMissing = t.eventsMissing)
    (hb : t'.eventsByTime = t.eventsByTime)
    (hd : ∀ id d, t'.eventsContentState.get id = some (.deleted d) ↔
      t.eventsContentState.get id = some (.deleted d)) : Canonical t' := by
  refine ⟨?_, ?_, ?_, ?_⟩
  · rw [hev, hh]; exact h.heads
  · rw [hev, hm]; exact h.missing
  · rw [hev, hb]; exact h.byTime
  · intro id d
    rw [hd, hev]
    exact h.deleted id d

/-- What the row of an unresolved parent remembers, present or not. -/
theorem Canonical.missing_deletedBy {t : EventTables} (h : Canonical t) {a : RostraId}
    {p : ShortEventId} (hown : ¬Owned t.events a p) :
    (t.eventsMissing.get (a, p)).bind (·.deletedBy) = deleter t.events a p := by
  cases hr : t.eventsMissing.get (a, p) with
  | some r => exact ((h.missing a p r).mp hr).2.2
  | none =>
    have hn : ¬Named t.events a p := by
      intro hn
      have := (h.missing a p ⟨deleter t.events a p⟩).mpr ⟨hn, hown, rfl⟩
      rw [hr] at this
      cases this
    rw [deleter_eq_none hn]
    rfl

/-! ## 3. Merging attribution

The stored attribution of a parent is the id of a deleter, and the code compares the candidate with the header that
it finds under that id. -/

/-- **Merging is adding one more deleter**: every recorded order belongs to a stored header, so the comparison with
it is a comparison of two members of the set. -/
theorem mergeDeletedByTx_eq {h : Headers} {a : RostraId} {p : ShortEventId} (c : EventOrder) :
    mergeDeletedByTx (deleter h a p) (some c) h =
      .ok ((Table.greatest (insert c (deleterOrders h a p))).map fun o => (ofLex o).2) := by
  rw [Table.greatest_insert]
  cases hg : Table.greatest (deleterOrders h a p) with
  | none => simp [mergeDeletedByTx, deleter, hg]
  | some m =>
    obtain ⟨e, he, hts, -⟩ := mem_deleterOrders.mp (Table.greatest_mem hg)
    simp [mergeDeletedByTx, deleter, hg, he, hts]

/-- What a merge at insertion gives: the attribution among the headers with the new one. -/
theorem mergeDeletedByTx_insert {h : Headers} {id : ShortEventId} {e : Event} {p : ShortEventId}
    (hnew : h.get id = none) (isDel : Bool) (hdel : isDel = true ↔ Event.Deletes e p) :
    mergeDeletedByTx (deleter h e.author p)
        (if isDel then some (toLex (e.timestamp, id)) else none) h =
      .ok (deleter (h.insert id e) e.author p) := by
  cases isDel with
  | true =>
    simp only [if_true]
    rw [mergeDeletedByTx_eq, deleter, deleterOrders_insert hnew, if_pos ⟨rfl, hdel.mp rfl⟩]
  | false =>
    have hnd : ¬Event.Deletes e p := fun hd => by simpa using hdel.mpr hd
    rw [if_neg Bool.false_ne_true, deleter, deleter, deleterOrders_insert hnew,
      if_neg fun hd => hnd hd.2]
    rfl

/-! ## 4. The phases of an insertion

The new header takes the place of a missing parent, if there is one. The parents are visited next, then the header
is stored, and then its content starts. In between the tables describe neither the old set of headers nor the new
one. -/

variable [Primitives]

/-- No header is its own parent: its id is the hash of what it names. -/
def NoSelfParent (v : VerifiedEvent) : Prop := ¬Event.Names v.event v.id

instance (v : VerifiedEvent) : Decidable (NoSelfParent v) := inferInstanceAs (Decidable (¬_))

/-- The headers once `v` is stored. -/
abbrev headersWith (t : EventTables) (v : VerifiedEvent) : Headers := t.events.insert v.id v.event

/-- What `takeMissing` does to the graph tables, in terms of the stored headers. -/
structure Resolved (t t₀ : EventTables) (v : VerifiedEvent) (isDeleted : Bool) : Prop where
  events : t₀.events = t.events
  byTime : t₀.eventsByTime = t.eventsByTime
  heads : ∀ k, k ∈ t₀.eventsHeads ↔
    k ∈ t.eventsHeads ∨ (k = (v.event.author, v.id) ∧ ¬Named t.events v.event.author v.id)
  missing_self : t₀.eventsMissing.get (v.event.author, v.id) = none
  missing_other : ∀ k, k ≠ (v.event.author, v.id) → t₀.eventsMissing.get k = t.eventsMissing.get k
  state_self : isDeleted = true → t₀.eventsContentState.get v.id =
    (deleter t.events v.event.author v.id).map .deleted
  state_other : ∀ id, id ≠ v.id ∨ isDeleted = false →
    t₀.eventsContentState.get id = t.eventsContentState.get id
  isDeleted_eq : isDeleted = (deleter t.events v.event.author v.id).isSome

theorem takeMissing_resolved {t : EventTables} (hc : Canonical t) {v : VerifiedEvent}
    (hnew : t.events.get v.id = none) :
    Resolved t (takeMissing t v).1 v (takeMissing t v).2.2 := by
  have hown : ¬Owned t.events v.event.author v.id := by
    rintro ⟨e, he, -⟩
    rw [hnew] at he
    cases he
  cases hrow : t.eventsMissing.get (v.event.author, v.id) with
  | none =>
    simp only [takeMissing, hrow]
    have hn : ¬Named t.events v.event.author v.id := by
      intro hn
      have := (hc.missing _ _ ⟨deleter t.events v.event.author v.id⟩).mpr ⟨hn, hown, rfl⟩
      rw [hrow] at this
      cases this
    refine ⟨rfl, rfl, fun k => ?_, hrow, fun _ _ => rfl, (fun h => by cases h), fun _ _ => rfl, ?_⟩
    · simp only [Finset.mem_insert]
      tauto
    · rw [deleter_eq_none hn]
      rfl
  | some row =>
    obtain ⟨hn, -, hdel⟩ := (hc.missing _ _ row).mp hrow
    have hheads : ∀ k : RostraId × ShortEventId, k ∈ t.eventsHeads ↔
        k ∈ t.eventsHeads ∨ (k = (v.event.author, v.id) ∧ ¬Named t.events v.event.author v.id) :=
      fun k => ⟨.inl, fun h => h.elim id fun h' => absurd hn h'.2⟩
    cases hd : row.deletedBy with
    | none =>
      rw [hd] at hdel
      simp only [takeMissing, hrow, hd]
      refine ⟨rfl, rfl, hheads, Table.get_remove_self .., fun k hk => ?_, (fun h => by cases h),
        fun _ _ => rfl, by rw [← hdel]; rfl⟩
      exact Table.get_remove_of_ne _ hk
    | some d =>
      rw [hd] at hdel
      simp only [takeMissing, hrow, hd]
      refine ⟨rfl, rfl, hheads, Table.get_remove_self .., fun k hk => ?_, fun _ => ?_,
        fun id hid => ?_, by rw [← hdel]; rfl⟩
      · exact Table.get_remove_of_ne _ hk
      · rw [Table.get_insert_self, ← hdel]
        rfl
      · rcases hid with hid | hid
        · exact Table.get_insert_of_ne _ _ hid
        · cases hid

/-- The graph tables after the parents in `done` were visited. -/
structure Scanned (t₀ : EventTables) (v : VerifiedEvent) (done : Finset ShortEventId)
    (t : EventTables) : Prop where
  events : t.events = t₀.events
  byTime : t.eventsByTime = t₀.eventsByTime
  heads : ∀ k, k ∈ t.eventsHeads ↔ k ∈ t₀.eventsHeads ∧ ¬(k.1 = v.event.author ∧ k.2 ∈ done)
  missing_done : ∀ p ∈ done, ¬Owned t₀.events v.event.author p →
    t.eventsMissing.get (v.event.author, p) = some ⟨deleter (headersWith t₀ v) v.event.author p⟩
  missing_other : ∀ a p, ¬(a = v.event.author ∧ p ∈ done ∧ ¬Owned t₀.events v.event.author p) →
    t.eventsMissing.get (a, p) = t₀.eventsMissing.get (a, p)
  state_done : ∀ p ∈ done, Owned t₀.events v.event.author p → Event.Deletes v.event p →
    t.eventsContentState.get p = (deleter (headersWith t₀ v) v.event.author p).map .deleted
  state_other : ∀ p, ¬(p ∈ done ∧ Owned t₀.events v.event.author p ∧ Event.Deletes v.event p) →
    t.eventsContentState.get p = t₀.eventsContentState.get p

theorem scanned_empty (t₀ : EventTables) (v : VerifiedEvent) : Scanned t₀ v ∅ t₀ := by
  refine ⟨rfl, rfl, fun k => ?_, fun p hp => ?_, fun _ _ _ => rfl, fun p hp => ?_, fun _ _ => rfl⟩
  · simp
  · simp at hp
  · simp at hp

omit [Primitives] in
/-- The attribution stored with a parent that is here. -/
theorem Canonical.state_deletedBy {t : EventTables} (hc : Canonical t) {p : ShortEventId} {e : Event}
    (he : t.events.get p = some e) :
    EventContentState.deletedBy? (t.eventsContentState.get p) = deleter t.events e.author p := by
  cases hd : deleter t.events e.author p with
  | some d => rw [(hc.deleted p d).mpr ⟨e, he, hd⟩]; rfl
  | none =>
    unfold EventContentState.deletedBy?
    split
    · next d hs =>
      obtain ⟨e', he', hd'⟩ := (hc.deleted p d).mp hs
      rw [he] at he'
      cases he'
      rw [hd] at hd'
      cases hd'
    · rfl

/-! ## 5. The loop over the parents

There are two parents, which may be one, and the auxiliary one may ask for a deletion. A parent that is stored
under another author counts as missing. -/

/-- What visiting one more parent does to the graph tables, before its head row is erased. -/
structure Visited (t₀ : EventTables) (v : VerifiedEvent) (p : ShortEventId) (t t' : EventTables) :
    Prop where
  events : t'.events = t.events
  byTime : t'.eventsByTime = t.eventsByTime
  heads : t'.eventsHeads = t.eventsHeads
  missing_self : ¬Owned t₀.events v.event.author p →
    t'.eventsMissing.get (v.event.author, p) = some ⟨deleter (headersWith t₀ v) v.event.author p⟩
  missing_other : ∀ a q, ¬(a = v.event.author ∧ q = p ∧ ¬Owned t₀.events v.event.author p) →
    t'.eventsMissing.get (a, q) = t.eventsMissing.get (a, q)
  state_self : Owned t₀.events v.event.author p → Event.Deletes v.event p →
    t'.eventsContentState.get p = (deleter (headersWith t₀ v) v.event.author p).map .deleted
  state_other : ∀ q, ¬(q = p ∧ Owned t₀.events v.event.author p ∧ Event.Deletes v.event p) →
    t'.eventsContentState.get q = t.eventsContentState.get q

/-- A visit extends a scan. -/
theorem Scanned.visit {t₀ t t' : EventTables} {v : VerifiedEvent} {done : Finset ShortEventId}
    {p : ShortEventId} (hs : Scanned t₀ v done t) (hv : Visited t₀ v p t t') :
    Scanned t₀ v (insert p done)
      { t' with eventsHeads := t'.eventsHeads.erase (v.event.author, p) } := by
  refine ⟨hv.events.trans hs.events, hv.byTime.trans hs.byTime, fun k => ?_, fun q hq hown => ?_,
    fun a q hq => ?_, fun q hq hown hdel => ?_, fun q hq => ?_⟩
  · rw [Finset.mem_erase, hv.heads, hs.heads, Finset.mem_insert]
    constructor
    · rintro ⟨hne, hk, hdone⟩
      refine ⟨hk, fun ⟨ha, hq⟩ => ?_⟩
      rcases hq with hq | hq
      · exact hne (Prod.ext ha hq)
      · exact hdone ⟨ha, hq⟩
    · rintro ⟨hk, hdone⟩
      refine ⟨fun h => hdone ?_, hk, fun ⟨ha, hq⟩ => hdone ⟨ha, .inr hq⟩⟩
      rw [h]
      exact ⟨rfl, .inl rfl⟩
  · by_cases hqp : q = p
    · subst hqp
      exact hv.missing_self hown
    · rw [hv.missing_other _ _ fun h => hqp h.2.1]
      exact hs.missing_done q ((Finset.mem_insert.mp hq).resolve_left hqp) hown
  · rw [hv.missing_other a q fun h => hq ⟨h.1, by simp [h.2.1], h.2.1 ▸ h.2.2⟩]
    exact hs.missing_other a q fun h => hq ⟨h.1, by simp [h.2.1], h.2.2⟩
  · by_cases hqp : q = p
    · subst hqp
      exact hv.state_self hown hdel
    · rw [hv.state_other _ fun h => hqp h.1]
      exact hs.state_done q ((Finset.mem_insert.mp hq).resolve_left hqp) hown hdel
  · rw [hv.state_other q fun h => hq ⟨by simp [h.1], h.1 ▸ h.2.1, h.1 ▸ h.2.2⟩]
    exact hs.state_other q fun h => hq ⟨by simp [h.1], h.2.1, h.2.2⟩

/-- The deletion arm visits its parent. -/
theorem deleteParentTx_visited {t₀ : EventTables} {v : VerifiedEvent} {s : ParentScan}
    {p : ShortEventId} {parent : Event} (hnew : t₀.events.get v.id = none)
    (hev : s.ev.events = t₀.events) (hp : t₀.events.get p = some parent)
    (ha : parent.author = v.event.author) (hdel : Event.Deletes v.event p)
    (hby : EventContentState.deletedBy? (s.ev.eventsContentState.get p) =
      deleter t₀.events v.event.author p) :
    Ensures (deleteParentTx s v p parent) (fun s' => Visited t₀ v p s.ev s'.ev)
      (fun e => ¬IsLostAttribution e) := by
  have hmerge := mergeDeletedByTx_insert (e := v.event) hnew true ⟨fun _ => hdel, fun _ => rfl⟩
  obtain ⟨d, hd⟩ : ∃ d, deleter (headersWith t₀ v) v.event.author p = some d := by
    rw [deleter, deleterOrders_insert hnew, if_pos ⟨rfl, hdel⟩, Table.greatest_insert]
    exact ⟨_, rfl⟩
  have howned : Owned t₀.events v.event.author p := ⟨parent, hp, ha⟩
  unfold deleteParentTx
  simp only [hby, hev]
  rw [if_pos rfl, hd] at hmerge
  rw [hmerge]
  -- neither the release of the reference nor the usage update is about attribution
  refine ((releaseContentRcTx_error _ _ _).mono (fun _ h => h) ?_).bind fun rc _ => ?_
  · rintro e (rfl | ⟨_, rfl⟩) ⟨_, h⟩ <;> cases h
  refine ((trackParentDeletionTx_error _ _ _).mono (fun _ h => h) ?_).bind fun usage _ => ?_
  · rintro e (rfl | ⟨_, rfl⟩) ⟨_, h⟩ <;> cases h
  refine ⟨hev.symm, rfl, rfl, fun h => absurd howned h, fun _ _ _ => rfl, fun _ _ => ?_,
    fun q hq => ?_⟩
  · rw [hd]
    exact Table.get_insert_self ..
  · exact Table.get_insert_of_ne _ _ fun h => hq ⟨h, howned, hdel⟩

/-- The missing arm visits its parent. -/
theorem missParentTx_visited {t₀ : EventTables} {v : VerifiedEvent} {s : ParentScan}
    {p : ShortEventId} {isAux : Bool} (hnew : t₀.events.get v.id = none)
    (hev : s.ev.events = t₀.events) (hown : ¬Owned t₀.events v.event.author p)
    (hdel : deletesParent v isAux = true ↔ Event.Deletes v.event p)
    (hby : (s.ev.eventsMissing.get (v.event.author, p)).bind (·.deletedBy) =
      deleter t₀.events v.event.author p) :
    Ensures (missParentTx s v p isAux) (fun s' => Visited t₀ v p s.ev s'.ev)
      (fun e => ¬IsLostAttribution e) := by
  unfold missParentTx
  simp only [hby, hev]
  rw [mergeDeletedByTx_insert hnew _ hdel]
  refine ⟨hev.symm, rfl, rfl, fun _ => Table.get_insert_self .., fun a q hq => ?_,
    fun h => absurd h hown, fun _ _ => rfl⟩
  refine Table.get_insert_of_ne _ _ fun h => ?_
  simp only [Prod.mk.injEq] at h
  exact hq ⟨h.1, h.2, hown⟩

/-- **One turn of the loop**, for a parent that is stored, missing, or stored under another author. -/
theorem processParentTx_scanned {t t₀ : EventTables} {v : VerifiedEvent} {isDeleted isAux : Bool}
    {s : ParentScan} {done : Finset ShortEventId} {p : ShortEventId} (hc : Canonical t)
    (hr : Resolved t t₀ v isDeleted) (hnew : t.events.get v.id = none) (hself : p ≠ v.id)
    (hs : Scanned t₀ v done s.ev) (hp : p ∉ done)
    (hdel : deletesParent v isAux = true ↔ Event.Deletes v.event p) :
    Ensures (processParentTx v s (some p, isAux))
      (fun s' => Scanned t₀ v (insert p done) s'.ev) (fun e => ¬IsLostAttribution e) := by
  have hnew₀ : t₀.events.get v.id = none := by rw [hr.events]; exact hnew
  have hstate : s.ev.eventsContentState.get p = t.eventsContentState.get p := by
    rw [hs.state_other p fun h => hp h.1, hr.state_other p (.inl hself)]
  have hmissing : s.ev.eventsMissing.get (v.event.author, p) =
      t.eventsMissing.get (v.event.author, p) := by
    rw [hs.missing_other _ p fun h => hp h.2.1, hr.missing_other]
    intro h
    exact hself (Prod.ext_iff.mp h).2
  suffices hvisit : Ensures (visitParentTx v s p isAux) (fun s' => Visited t₀ v p s.ev s'.ev)
      (fun e => ¬IsLostAttribution e) by
    exact hvisit.bind fun s' hv => ensures_pure.mpr (hs.visit hv)
  unfold visitParentTx
  split
  · next parent ho =>
    obtain ⟨he, ha⟩ := ownParent?_eq_some.mp ho
    rw [hs.events] at he
    split
    · next hflag =>
      refine deleteParentTx_visited hnew₀ hs.events he ha (hdel.mp hflag) ?_
      rw [hr.events] at he ⊢
      rw [hstate, ← ha]
      exact hc.state_deletedBy he
    · next hflag =>
      have hnd : ¬Event.Deletes v.event p := fun h => hflag (hdel.mpr h)
      exact ⟨rfl, rfl, rfl, fun h => absurd ⟨parent, he, ha⟩ h, fun _ _ _ => rfl,
        fun _ h => absurd h hnd, fun _ _ => rfl⟩
  · next ho =>
    have hown : ¬Owned t₀.events v.event.author p := by
      rw [← hs.events]
      exact ownParent?_eq_none.mp ho
    refine missParentTx_visited hnew₀ hs.events hown hdel ?_
    rw [hr.events] at hown ⊢
    rw [hmissing]
    exact hc.missing_deletedBy hown

/-- The parents a header names. -/
def parents (e : Event) : Finset ShortEventId := e.parentAux.toFinset ∪ e.parentPrev.toFinset

omit [Primitives] in
theorem mem_parents {e : Event} {p : ShortEventId} : p ∈ parents e ↔ Event.Names e p := by
  simp [parents, Event.Names, or_comm]

/-- One turn, for a parent that may be absent. -/
theorem processParentTx_option {t t₀ : EventTables} {v : VerifiedEvent} {isDeleted isAux : Bool}
    {s : ParentScan} {done : Finset ShortEventId} {o : Option ShortEventId} (hc : Canonical t)
    (hr : Resolved t t₀ v isDeleted) (hnew : t.events.get v.id = none)
    (hs : Scanned t₀ v done s.ev)
    (ho : ∀ p, o = some p → p ≠ v.id ∧ p ∉ done ∧
      (deletesParent v isAux = true ↔ Event.Deletes v.event p)) :
    Ensures (processParentTx v s (o, isAux))
      (fun s' => Scanned t₀ v (done ∪ o.toFinset) s'.ev) (fun e => ¬IsLostAttribution e) := by
  cases o with
  | none => simpa [processParentTx] using hs
  | some p =>
    obtain ⟨hself, hp, hdel⟩ := ho p rfl
    have := processParentTx_scanned hc hr hnew hself hs hp hdel
    rwa [Finset.insert_eq, Finset.union_comm] at this

/-- **The loop visits every parent once.** If both parents are one event, the second turn finds its work done. -/
theorem parentIds_scanned {t t₀ : EventTables} {v : VerifiedEvent} {isDeleted : Bool}
    (hc : Canonical t) (hr : Resolved t t₀ v isDeleted) (hnew : t.events.get v.id = none)
    (hself : NoSelfParent v) :
    Ensures ((parentIds v.event).foldlM (processParentTx v) { ev := t₀ })
      (fun s => Scanned t₀ v (parents v.event) s.ev) (fun e => ¬IsLostAttribution e) := by
  have haux : ∀ p, v.event.parentAux = some p → p ≠ v.id ∧ p ∉ (∅ : Finset ShortEventId) ∧
      (deletesParent v true = true ↔ Event.Deletes v.event p) := by
    intro p hp
    refine ⟨fun h => hself (.inr (h ▸ hp)), by simp, ?_⟩
    simp [deletesParent, Event.Deletes, hp]
  have hfirst : Ensures (processParentTx v { ev := t₀ } (v.event.parentAux, true))
      (fun s => Scanned t₀ v v.event.parentAux.toFinset s.ev) (fun e => ¬IsLostAttribution e) := by
    have := processParentTx_option hc hr hnew (s := { ev := t₀ }) (scanned_empty t₀ v) haux
    rwa [Finset.empty_union] at this
  unfold parentIds
  split
  · next heq =>
    have hpar : parents v.event = v.event.parentAux.toFinset := by
      rw [parents, ← heq, Finset.union_self]
    rw [hpar, List.foldlM_cons]
    exact hfirst.bind fun s hs => hs
  · next hne =>
    rw [List.foldlM_cons, parents]
    refine hfirst.bind fun s hs => ?_
    rw [List.foldlM_cons]
    refine (processParentTx_option hc hr hnew hs fun p hp => ?_).bind fun s' hs' => hs'
    refine ⟨fun h => hself (.inl (h ▸ hp)), ?_, ?_⟩
    · simp only [Option.mem_toFinset, Option.mem_def]
      exact fun h => hne (h.trans hp.symm)
    · simp only [deletesParent, Bool.and_false, Bool.false_eq_true, false_iff]
      exact fun h => hne (h.2.trans hp.symm)

/-! ## 6. Storing the header and starting its content

The last two phases, and what all of them come to, table by table. -/

theorem storeHeaderTx_ensures (t : EventTables) (v : VerifiedEvent) :
    Ensures (storeHeaderTx t v)
      (fun t' => t' = { t with
        events := t.events.insert v.id v.event
        eventsByTime := insert (v.event.timestamp, v.id) t.eventsByTime
        idsDataUsage := t'.idsDataUsage }) IsUsageError :=
  (trackNewEventTx_error _ _).bind fun _ _ => rfl

/-- Starting the content writes at most the state row of the new event, and never `Deleted`. -/
theorem startContentTx_ensures (t : EventTables) (v : VerifiedEvent) (isDeleted : Bool) :
    Ensures (startContentTx t v isDeleted)
      (fun t' => t'.events = t.events ∧ t'.eventsHeads = t.eventsHeads ∧
        t'.eventsMissing = t.eventsMissing ∧ t'.eventsByTime = t.eventsByTime ∧
        t'.idsFull = t.idsFull ∧
        t'.eventsContentState = if isDeleted = false ∧ 0 < v.event.contentLen then
          t.eventsContentState.insert v.id .freshMissing else t.eventsContentState)
      (fun e => IsRcError e ∨ IsUsageError e) := by
  have hrc : ∀ h rc, Ensures (incrementContentRcTx h rc) (fun _ => True)
      (fun e => IsRcError e ∨ IsUsageError e) := fun h rc =>
    (incrementContentRcTx_error h rc).mono (fun _ h => h) fun _ => .inl
  have hnew : ∀ b a n u, Ensures (recordPayloadTx b a n u) (fun _ => True)
      (fun e => IsRcError e ∨ IsUsageError e) := fun b a n u =>
    (recordPayloadTx_error b a n u).mono (fun _ h => h) fun _ => .inr
  have hmove : ∀ b b' a n u, Ensures (movePayloadTx b b' a n u) (fun _ => True)
      (fun e => IsRcError e ∨ IsUsageError e) := fun b b' a n u =>
    (movePayloadTx_error b b' a n u).mono (fun _ h => h) fun _ => .inr
  unfold startContentTx
  split
  · next hd =>
    refine (hnew _ _ _ _).bind fun usage _ => ?_
    exact ⟨rfl, rfl, rfl, rfl, rfl, by simp [hd]⟩
  · next hd =>
    split
    · next hlen =>
      refine (hrc _ _).bind fun rc _ => (hnew _ _ _ _).bind fun usage _ => ?_
      exact ⟨rfl, rfl, rfl, rfl, rfl, by simp [hd, hlen]⟩
    · next hlen =>
      refine (hrc _ _).bind fun rc _ => (hnew _ _ _ _).bind fun usage _ => ?_
      refine (hmove _ _ _ _ _).bind fun usage' _ => ?_
      exact ⟨rfl, rfl, rfl, rfl, rfl, by simp [hlen]⟩

/-- A header deletes nothing else than the parent it names, and not itself. -/
theorem deleter_insert_of_not {t : EventTables} {v : VerifiedEvent} {a : RostraId}
    {p : ShortEventId} (hnew : t.events.get v.id = none)
    (h : ¬(v.event.author = a ∧ Event.Deletes v.event p)) :
    deleter (headersWith t v) a p = deleter t.events a p := by
  rw [deleter, deleterOrders_insert hnew, if_neg h, deleter]

section Phases

variable {t t₀ t₁ t' : EventTables} {v : VerifiedEvent} {isDeleted : Bool}

/-- The heads, after the resolution took away the parents that now have a child. -/
theorem heads_of_phases (hc : Canonical t) (hnew : t.events.get v.id = none) (hself : NoSelfParent v)
    (hr : Resolved t t₀ v isDeleted) (hs : Scanned t₀ v (parents v.event) t₁)
    (hev : t'.events = headersWith t v) (hheads : t'.eventsHeads = t₁.eventsHeads) (a : RostraId) (p : ShortEventId) :
    (a, p) ∈ t'.eventsHeads ↔ Owned t'.events a p ∧ ¬Named t'.events a p := by
  rw [hheads, hs.heads, hr.heads, hc.heads, hev, owned_insert hnew, named_insert hnew, mem_parents]
  constructor
  · rintro ⟨⟨ho, hn⟩ | ⟨heq, hn⟩, hdone⟩
    · exact ⟨.inl ho, fun h => h.elim hn fun h' => hdone ⟨h'.1.symm, h'.2⟩⟩
    · cases heq
      exact ⟨.inr ⟨rfl, rfl⟩, fun h => h.elim hn fun h' => hself h'.2⟩
  · rintro ⟨ho | ⟨rfl, rfl⟩, hn⟩
    · exact ⟨.inl ⟨ho, fun h => hn (.inl h)⟩, fun h => hn (.inr ⟨h.1.symm, h.2⟩)⟩
    · exact ⟨.inr ⟨rfl, fun h => hn (.inl h)⟩, fun h => hself h.2⟩

/-- The missing parents: the new event is one no longer, and those that it names and that are not here are. -/
theorem missing_of_phases (hc : Canonical t) (hnew : t.events.get v.id = none) (hself : NoSelfParent v)
    (hr : Resolved t t₀ v isDeleted) (hs : Scanned t₀ v (parents v.event) t₁)
    (hev : t'.events = headersWith t v) (hmissing : t'.eventsMissing = t₁.eventsMissing) (a : RostraId)
    (p : ShortEventId) (r : EventsMissingRecord) :
    t'.eventsMissing.get (a, p) = some r ↔ Named t'.events a p ∧ ¬Owned t'.events a p ∧ r.deletedBy = deleter t'.events a p := by
  have hwith : headersWith t₀ v = headersWith t v := by rw [headersWith, headersWith, hr.events]
  have hself' : ∀ p, Event.Names v.event p → p ≠ v.id := fun p hp h => hself (h ▸ hp)
  have hdelNames : ∀ p, Event.Deletes v.event p → Event.Names v.event p := fun p hp => .inr hp.2
  rw [hmissing, hev, owned_insert hnew, named_insert hnew]
  by_cases hcase : a = v.event.author ∧ p ∈ parents v.event ∧ ¬Owned t₀.events v.event.author p
  · obtain ⟨rfl, hp, hown⟩ := hcase
    rw [hs.missing_done p hp hown, hwith]
    rw [hr.events] at hown
    have hname := mem_parents.mp hp
    constructor
    · rintro h
      cases h
      exact ⟨.inr ⟨rfl, hname⟩, fun h => h.elim hown fun h' => hself' p hname h'.1, rfl⟩
    · rintro ⟨-, -, h⟩
      rw [← h]
  · rw [hs.missing_other a p hcase]
    by_cases hk : (a, p) = (v.event.author, v.id)
    · cases hk
      rw [hr.missing_self]
      constructor
      · intro h; cases h
      · rintro ⟨-, h, -⟩
        exact absurd (.inr ⟨rfl, rfl⟩) h
    · rw [hr.missing_other _ hk, hc.missing]
      have hkey : ¬(p = v.id ∧ v.event.author = a) := fun h => hk (by rw [h.1, h.2])
      by_cases hname : v.event.author = a ∧ Event.Names v.event p
      · -- a parent that is here has no row, before and after
        have hown : Owned t.events a p := by
          rw [hr.events] at hcase
          by_contra hown
          exact hcase ⟨hname.1.symm, mem_parents.mpr hname.2, hname.1 ▸ hown⟩
        exact ⟨fun h => absurd hown h.2.1, fun h => absurd (.inl hown) h.2.1⟩
      · rw [deleter_insert_of_not hnew fun h => hname ⟨h.1, hdelNames p h.2⟩]
        simp [hname, hkey]

/-- The deletions: the new event may be deleted already, and may delete a parent that is here. -/
theorem deleted_of_phases (hc : Canonical t) (hnew : t.events.get v.id = none) (hself : NoSelfParent v)
    (hr : Resolved t t₀ v isDeleted) (hs : Scanned t₀ v (parents v.event) t₁)
    (hev : t'.events = headersWith t v)
    (hstate : t'.eventsContentState = if isDeleted = false ∧ 0 < v.event.contentLen then
      t₁.eventsContentState.insert v.id .freshMissing else t₁.eventsContentState) (id d : ShortEventId) :
    t'.eventsContentState.get id = some (.deleted d) ↔
      ∃ e, t'.events.get id = some e ∧ deleter t'.events e.author id = some d := by
  have hwith : headersWith t₀ v = headersWith t v := by rw [headersWith, headersWith, hr.events]
  have hvid : v.id ∉ parents v.event := fun h => hself (mem_parents.mp h)
  have hdelNames : ∀ p, Event.Deletes v.event p → Event.Names v.event p := fun p hp => .inr hp.2
  have hplain : t₁.eventsContentState.get id = some (.deleted d) ↔
      ∃ e, (headersWith t v).get id = some e ∧ deleter (headersWith t v) e.author id = some d := by
    by_cases hid : id = v.id
    · subst hid
      rw [hs.state_other _ fun h => hvid h.1, Table.get_insert_self]
      have hdel := deleter_insert_of_not hnew (a := v.event.author)
        fun h => hself (hdelNames _ h.2)
      simp only [Option.some.injEq, exists_eq_left', hdel]
      cases hdeleted : isDeleted with
      | true =>
        rw [hr.state_self hdeleted]
        simp
      | false =>
        have hnone : deleter t.events v.event.author v.id = none := by
          simpa [hr.isDeleted_eq] using hdeleted
        rw [hr.state_other _ (.inr hdeleted), hnone, hc.deleted]
        simp [hnew]
    · rw [Table.get_insert_of_ne _ _ hid]
      by_cases hcase : id ∈ parents v.event ∧ Owned t₀.events v.event.author id ∧
          Event.Deletes v.event id
      · obtain ⟨hp, hown, hdel⟩ := hcase
        rw [hs.state_done id hp hown hdel, hwith]
        rw [hr.events] at hown
        obtain ⟨e, he, ha⟩ := hown
        simp [he, ha]
      · rw [hs.state_other id hcase, hr.state_other id (.inl hid), hc.deleted]
        refine exists_congr fun e => and_congr_right fun he => ?_
        rw [deleter_insert_of_not hnew]
        rintro ⟨ha, hdel⟩
        rw [hr.events] at hcase
        exact hcase ⟨mem_parents.mpr (hdelNames id hdel), ⟨e, he, ha.symm⟩, hdel⟩
  rw [hev, ← hplain, hstate]
  split
  · next hfresh =>
    by_cases hid : id = v.id
    · -- fresh content is not deleted, and nobody had deleted it
      subst hid
      rw [Table.get_insert_self]
      constructor
      · intro h; cases h
      · intro h
        rw [hs.state_other _ fun h => hvid h.1, hr.state_other _ (.inr hfresh.1)] at h
        obtain ⟨e, he, -⟩ := (hc.deleted _ _).mp h
        rw [hnew] at he
        cases he
    · rw [Table.get_insert_of_ne _ _ hid]
  · rfl

/-- The phases put together: what the tables look like after the last of them. -/
theorem canonical_of_phases (hc : Canonical t) (hnew : t.events.get v.id = none) (hself : NoSelfParent v)
    (hr : Resolved t t₀ v isDeleted) (hs : Scanned t₀ v (parents v.event) t₁)
    (hev : t'.events = headersWith t v) (hheads : t'.eventsHeads = t₁.eventsHeads)
    (hmissing : t'.eventsMissing = t₁.eventsMissing)
    (hby : t'.eventsByTime = insert (v.event.timestamp, v.id) t.eventsByTime)
    (hstate : t'.eventsContentState = if isDeleted = false ∧ 0 < v.event.contentLen then
      t₁.eventsContentState.insert v.id .freshMissing else t₁.eventsContentState) :
    Canonical t' := by
  constructor
  case heads => exact heads_of_phases hc hnew hself hr hs hev hheads
  case missing => exact missing_of_phases hc hnew hself hr hs hev hmissing
  case byTime =>
    intro ts id
    rw [hby, hev, Finset.mem_insert, hc.byTime]
    by_cases hid : id = v.id
    · subst hid
      simp [hnew, eq_comm]
    · simp [Table.get_insert_of_ne _ _ hid, hid]
  case deleted => exact deleted_of_phases hc hnew hself hr hs hev hstate

end Phases

/-- **Insertion keeps the graph canonical**, and the attribution it looks up is always there. No header may be its
own parent, which a hash of it rules out. -/
theorem insertEventTx_canonical {t : EventTables} (hc : Canonical t) {v : VerifiedEvent}
    (hself : NoSelfParent v) :
    Ensures (insertEventTx t v) (fun r => Canonical r.1) (fun e => ¬IsLostAttribution e) := by
  unfold insertEventTx
  refine ((register_ensures _ _).mono (fun _ h => h) ?_).bind fun idsFull _ => ?_
  · rintro e ⟨_, _, _, rfl⟩ ⟨_, h⟩
    cases h
  have hc' : Canonical { t with idsFull := idsFull } :=
    hc.congr rfl rfl rfl rfl fun _ _ => Iff.rfl
  split
  · exact hc'
  · next hnew =>
    replace hnew : t.events.get v.id = none := by simpa using hnew
    have hr := takeMissing_resolved hc' (v := v) hnew
    unfold insertNewEventTx
    refine (parentIds_scanned hc' hr hnew hself).bind fun s hs => ?_
    refine ((storeHeaderTx_ensures _ _).mono (fun _ h => h) ?_).bind fun t₂ h₂ => ?_
    · rintro e (rfl | ⟨_, rfl⟩) ⟨_, h⟩ <;> cases h
    refine ((startContentTx_ensures _ _ _).mono (fun _ h => h) ?_).bind fun t₃ h₃ => ?_
    · rintro e ((rfl | ⟨_, rfl⟩) | (rfl | ⟨_, rfl⟩)) ⟨_, h⟩ <;> cases h
    obtain ⟨hev, hheads, hmissing, hby, -, hstate⟩ := h₃
    rw [h₂] at hev hheads hmissing hby hstate
    refine canonical_of_phases hc' hnew hself hr hs ?_ hheads hmissing ?_ hstate
    · rw [hev]
      exact congrArg (·.insert v.id v.event) (hs.events.trans hr.events)
    · rw [hby]
      exact congrArg (insert (v.event.timestamp, v.id)) (hs.byTime.trans hr.byTime)

end Rostra.Db
