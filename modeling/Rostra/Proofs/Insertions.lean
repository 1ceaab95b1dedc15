/-
# Insertions in any order

A run of `insert_event_tx` over a list of envelopes, with repetitions and in any order.  `GraphOf`
is the graph as a function of a SET of events, in the set's own terms: no table is mentioned on its
right-hand sides.  Every run ends in the graph of the set it inserted, so two runs over the same set
end in the same tables.

A run can be refused: by a second identity with the prefix of a registered one, or by a counter
that would pass 64 bits.  It cannot be refused for a lost attribution.

The set is the set of events that were inserted, and not of those that were delivered: whether an insertion is
reached at all is up to the transaction around it. The tables are compared row by row with the graph of the set, so
the result says more than that two orders agree.

An event is identified with its id. That no two events of a run share one is a hypothesis (`CollisionFree`), which
hashes provide, and that none names itself as its parent is another one (`NoSelfParent`), which they provide as
well.
-/
import Rostra.Proofs.Books

namespace Rostra.Db

open Rostra Outcome

section Insertions

variable [Primitives]

/-! ## 1. The graph of a set

Deleters are compared by time and id, and nothing but the direct parent relation is looked at. -/

/-- The precedence of an event among deleters. -/
def VerifiedEvent.order (v : VerifiedEvent) : EventOrder := toLex (v.event.timestamp, v.id)

/-- `w` is one of the events of `S` by which `a` deletes `p` directly. -/
structure IsDeleter (S : Set VerifiedEvent) (a : RostraId) (p : ShortEventId) (w : VerifiedEvent) :
    Prop where
  mem : w ∈ S
  author : w.event.author = a
  deletes : Event.Deletes w.event p

/-- The deleter of the greatest `(timestamp, id)`. -/
def LatestDeleter (S : Set VerifiedEvent) (a : RostraId) (p d : ShortEventId) : Prop :=
  ∃ w, IsDeleter S a p w ∧ w.id = d ∧
    ∀ w', IsDeleter S a p w' → VerifiedEvent.order w' ≤ VerifiedEvent.order w

/-- `a` has an event of id `p` in `S`. -/
def InSet (S : Set VerifiedEvent) (a : RostraId) (p : ShortEventId) : Prop :=
  ∃ v ∈ S, v.event.author = a ∧ v.id = p

/-- Some event of `a` in `S` names `p` as a parent. -/
def NamedIn (S : Set VerifiedEvent) (a : RostraId) (p : ShortEventId) : Prop :=
  ∃ v ∈ S, v.event.author = a ∧ (v.event.parentPrev = some p ∨ v.event.parentAux = some p)

/-- **The graph tables are those of the set `S`.** -/
structure GraphOf (S : Set VerifiedEvent) (t : EventTables) : Prop where
  events : ∀ id e, t.events.get id = some e ↔ ∃ v ∈ S, v.id = id ∧ v.event = e
  heads : ∀ a p, (a, p) ∈ t.eventsHeads ↔ InSet S a p ∧ ¬NamedIn S a p
  missing : ∀ a p, (∃ r, t.eventsMissing.get (a, p) = some r) ↔ NamedIn S a p ∧ ¬InSet S a p
  deletedBy_none : ∀ a p r, t.eventsMissing.get (a, p) = some r →
    (r.deletedBy = none ↔ ¬∃ w, IsDeleter S a p w)
  deletedBy_some : ∀ a p r, t.eventsMissing.get (a, p) = some r →
    ∀ d, r.deletedBy = some d ↔ LatestDeleter S a p d
  byTime : ∀ ts id, (ts, id) ∈ t.eventsByTime ↔ ∃ v ∈ S, v.event.timestamp = ts ∧ v.id = id

/-! ## 2. From the stored headers to the set

`Canonical` speaks of stored headers, `GraphOf` of a set. -/

/-- The stored headers are the set `S`. -/
def StoredIs (S : Set VerifiedEvent) (t : EventTables) : Prop :=
  ∀ id e, t.events.get id = some e ↔ ∃ v ∈ S, v.id = id ∧ v.event = e

section Transfer

variable {S : Set VerifiedEvent} {t : EventTables}

theorem StoredIs.owned (h : StoredIs S t) (a : RostraId) (p : ShortEventId) :
    Owned t.events a p ↔ InSet S a p := by
  constructor
  · rintro ⟨e, he, ha⟩
    obtain ⟨v, hv, hid, rfl⟩ := (h p e).mp he
    exact ⟨v, hv, ha, hid⟩
  · rintro ⟨v, hv, ha, hid⟩
    exact ⟨v.event, (h p _).mpr ⟨v, hv, hid, rfl⟩, ha⟩

theorem StoredIs.named (h : StoredIs S t) (a : RostraId) (p : ShortEventId) :
    Named t.events a p ↔ NamedIn S a p := by
  constructor
  · rintro ⟨id, e, he, ha, hp⟩
    obtain ⟨v, hv, hid, rfl⟩ := (h id e).mp he
    exact ⟨v, hv, ha, hp⟩
  · rintro ⟨v, hv, ha, hp⟩
    exact ⟨v.id, v.event, (h _ _).mpr ⟨v, hv, rfl, rfl⟩, ha, hp⟩

/-- The recorded orders are those of the deleters in the set. -/
theorem StoredIs.mem_deleterOrders (h : StoredIs S t) (a : RostraId) (p : ShortEventId)
    (o : EventOrder) :
    o ∈ deleterOrders t.events a p ↔ ∃ w, IsDeleter S a p w ∧ VerifiedEvent.order w = o := by
  rw [Db.mem_deleterOrders]
  constructor
  · rintro ⟨e, he, hts, ha, hd⟩
    obtain ⟨v, hv, hid, rfl⟩ := (h _ e).mp he
    exact ⟨v, ⟨hv, ha, hd⟩, by rw [VerifiedEvent.order, hts, hid]; rfl⟩
  · rintro ⟨w, hw, rfl⟩
    exact ⟨w.event, (h _ _).mpr ⟨w, hw.mem, rfl, rfl⟩, rfl, hw.author, hw.deletes⟩

theorem StoredIs.deleter_eq_some (h : StoredIs S t) (a : RostraId) (p d : ShortEventId) :
    deleter t.events a p = some d ↔ LatestDeleter S a p d := by
  unfold deleter
  constructor
  · intro hd
    obtain ⟨o, ho, rfl⟩ := Option.map_eq_some_iff.mp hd
    obtain ⟨w, hw, rfl⟩ := (h.mem_deleterOrders a p o).mp (Table.greatest_mem ho)
    refine ⟨w, hw, rfl, fun w' hw' => ?_⟩
    exact Table.le_greatest ho ((h.mem_deleterOrders a p _).mpr ⟨w', hw', rfl⟩)
  · rintro ⟨w, hw, rfl, hmax⟩
    have hg : Table.greatest (deleterOrders t.events a p) = some (VerifiedEvent.order w) := by
      refine Table.greatest_eq_some ((h.mem_deleterOrders a p _).mpr ⟨w, hw, rfl⟩) fun o ho => ?_
      obtain ⟨w', hw', rfl⟩ := (h.mem_deleterOrders a p o).mp ho
      exact hmax w' hw'
    rw [hg]
    rfl

theorem StoredIs.deleter_eq_none (h : StoredIs S t) (a : RostraId) (p : ShortEventId) :
    deleter t.events a p = none ↔ ¬∃ w, IsDeleter S a p w := by
  unfold deleter
  rw [Option.map_eq_none_iff]
  constructor
  · rintro hg ⟨w, hw⟩
    have := (h.mem_deleterOrders a p _).mpr ⟨w, hw, rfl⟩
    rw [Table.greatest_none hg] at this
    simp at this
  · intro hno
    cases hg : Table.greatest (deleterOrders t.events a p) with
    | none => rfl
    | some o =>
      obtain ⟨w, hw, -⟩ := (h.mem_deleterOrders a p o).mp (Table.greatest_mem hg)
      exact absurd ⟨w, hw⟩ hno

/-- **A canonical graph over the set is the graph of the set.** -/
theorem Canonical.graphOf (hc : Canonical t) (h : StoredIs S t) : GraphOf S t := by
  refine ⟨h, fun a p => ?_, fun a p => ?_, fun a p r hr => ?_, fun a p r hr d => ?_, fun ts id => ?_⟩
  · rw [hc.heads, h.owned, h.named]
  · rw [← h.owned, ← h.named]
    exact ⟨fun ⟨r, hr⟩ => ⟨((hc.missing a p r).mp hr).1, ((hc.missing a p r).mp hr).2.1⟩,
      fun ⟨hn, ho⟩ => ⟨⟨deleter t.events a p⟩, (hc.missing a p _).mpr ⟨hn, ho, rfl⟩⟩⟩
  · rw [((hc.missing a p r).mp hr).2.2, h.deleter_eq_none]
  · rw [((hc.missing a p r).mp hr).2.2, h.deleter_eq_some]
  · rw [hc.byTime]
    constructor
    · rintro ⟨e, he, hts⟩
      obtain ⟨v, hv, hid, rfl⟩ := (h id e).mp he
      exact ⟨v, hv, hts, hid⟩
    · rintro ⟨v, hv, hts, hid⟩
      exact ⟨v.event, (h id _).mpr ⟨v, hv, hid, rfl⟩, hts⟩

end Transfer

/-! ## 3. Two graphs of one set

The right-hand sides determine every row. -/

/-- The four tables are determined by the set. -/
theorem GraphOf.unique {S : Set VerifiedEvent} {t t' : EventTables} (h : GraphOf S t)
    (h' : GraphOf S t') :
    t.events = t'.events ∧ t.eventsHeads = t'.eventsHeads ∧ t.eventsMissing = t'.eventsMissing ∧
      t.eventsByTime = t'.eventsByTime := by
  refine ⟨Table.ext fun id => Option.ext fun e => ?_, Finset.ext fun k => ?_,
    Table.ext fun k => Option.ext fun r => ?_, Finset.ext fun k => ?_⟩
  · exact (h.events id e).trans (h'.events id e).symm
  · exact (h.heads k.1 k.2).trans (h'.heads k.1 k.2).symm
  · -- both rows are present or absent together, and remember the same deleter
    have key : ∀ {t t' : EventTables}, GraphOf S t → GraphOf S t' →
        t.eventsMissing.get k = some r → t'.eventsMissing.get k = some r := by
      intro t t' h h' hr
      obtain ⟨r', hr'⟩ := (h'.missing k.1 k.2).mpr ((h.missing k.1 k.2).mp ⟨r, hr⟩)
      have hby : r'.deletedBy = r.deletedBy := by
        refine Option.ext fun d => ?_
        exact (h'.deletedBy_some k.1 k.2 r' hr' d).trans (h.deletedBy_some k.1 k.2 r hr d).symm
      have hr'' : r' = r := by
        cases r'
        cases r
        exact congrArg _ hby
      rw [← hr'']
      exact hr'
    exact ⟨key h h', key h' h⟩
  · exact (h.byTime k.1 k.2).trans (h'.byTime k.1 k.2).symm

/-! ## 4. Runs

A set has no order and no repetitions; that the run has is what the induction gets rid of. -/

/-- Insert a list of envelopes, one after another. -/
def insertAll (t : EventTables) (vs : List VerifiedEvent) : DbResult EventTables :=
  vs.foldlM (fun t v => do
    let (t, _) ← insertEventTx t v
    pure t) t

omit [Primitives] in
theorem statesStored_empty : StatesStored {} := by
  intro id s h
  simp at h

theorem storedIs_empty : StoredIs ∅ {} := by
  intro id e
  simp

/-- A stored header joins the set. -/
theorem StoredIs.insert_new {S : Set VerifiedEvent} {t t' : EventTables} {v : VerifiedEvent}
    (hs : StoredIs S t) (hev : t'.events = t.events.insert v.id v.event)
    (hcf : CollisionFree (insert v S)) : StoredIs (insert v S) t' := by
  intro id e
  rw [hev]
  by_cases hid : id = v.id
  · subst hid
    rw [Table.get_insert_self]
    constructor
    · rintro ⟨⟩
      exact ⟨v, Set.mem_insert _ _, rfl, rfl⟩
    · rintro ⟨w, hw, hid, rfl⟩
      rw [hcf hw (Set.mem_insert _ _) hid]
  · rw [Table.get_insert_of_ne _ _ hid, hs]
    constructor
    · rintro ⟨w, hw, h⟩
      exact ⟨w, Set.mem_insert_of_mem _ hw, h⟩
    · rintro ⟨w, rfl | hw, rfl, rfl⟩
      · exact absurd rfl hid
      · exact ⟨w, hw, rfl, rfl⟩

/-- An insertion stores its header, once. -/
theorem InsertEffect.storedIs {S : Set VerifiedEvent} {t : EventTables} {v : VerifiedEvent}
    {r : EventTables × InsertEventOutcome} (h : InsertEffect t v r) (hs : StoredIs S t)
    (hcf : CollisionFree (insert v S)) : StoredIs (insert v S) r.1 := by
  cases h with
  | present e he hreg ht ho =>
    obtain ⟨w, hw, hid, -⟩ := (hs _ _).mp he
    -- the id is taken, so the event is already in the set
    have hv : v ∈ S := by
      rw [← hcf (Set.mem_insert_of_mem _ hw) (Set.mem_insert _ _) hid]
      exact hw
    rw [ht, Set.insert_eq_of_mem hv]
    exact hs
  | new hnew hreg wm isD dp rev mp h ho => exact hs.insert_new h.events hcf

/-- One insertion of a run. -/
theorem insertEventTx_step {S : Set VerifiedEvent} {t : EventTables} {v : VerifiedEvent}
    (hcf : CollisionFree (insert v S)) (hself : NoSelfParent v) (hs : StoredIs S t)
    (hst : StatesStored t) (hc : Canonical t) (hb : Balanced t) :
    Ensures (insertEventTx t v)
      (fun r => StoredIs (insert v S) r.1 ∧ StatesStored r.1 ∧ Canonical r.1 ∧ Balanced r.1)
      (fun e => IsCollision e ∨ IsCounterFull e) := by
  refine (((insertEventTx_effect t v).and (insertEventTx_canonical hc hself)).and
    (insertEventTx_balanced hb hst v)).mono (fun r hr => ?_) fun e he => ?_
  · obtain ⟨⟨heff, hc'⟩, hb'⟩ := hr
    exact ⟨heff.storedIs hs hcf, heff.statesStored hst, hc', hb'⟩
  · obtain ⟨⟨-, hl⟩, h | h | h⟩ := he
    · exact .inl ((register_ensures _ _).of_error h)
    · exact absurd h hl
    · exact .inr h.1

/-- The whole run, from any state that already has the invariants. -/
theorem insertAll_run :
    ∀ (vs : List VerifiedEvent) (S : Set VerifiedEvent) (t : EventTables),
      CollisionFree (S ∪ {v | v ∈ vs}) → (∀ v ∈ vs, NoSelfParent v) →
      StoredIs S t → StatesStored t → Canonical t → Balanced t →
        Ensures (insertAll t vs)
          (fun t' => StoredIs (S ∪ {v | v ∈ vs}) t' ∧ Canonical t')
          (fun e => IsCollision e ∨ IsCounterFull e)
  | [], S, t, _, _, hs, _, hc, _ => by
    have hS : S ∪ {v | v ∈ ([] : List VerifiedEvent)} = S := by simp
    rw [hS]
    exact ⟨hs, hc⟩
  | v :: vs, S, t, hcf, hself, hs, hst, hc, hb => by
    have hS : S ∪ {w | w ∈ v :: vs} = insert v S ∪ {w | w ∈ vs} := by
      ext w
      simp only [Set.mem_union, Set.mem_ofPred_eq, List.mem_cons, Set.mem_insert_iff]
      tauto
    rw [hS] at hcf ⊢
    unfold insertAll
    rw [List.foldlM_cons]
    refine Ensures.bind (P := fun t' => StoredIs (insert v S) t' ∧ StatesStored t' ∧ Canonical t' ∧
      Balanced t') ?_ fun t' ⟨hs', hst', hc', hb'⟩ => ?_
    · exact (insertEventTx_step (hcf.mono Set.subset_union_left) (hself v (by simp)) hs hst hc
        hb).bind fun r hr => hr
    · exact insertAll_run vs _ t' hcf (fun w hw => hself w (by simp [hw])) hs' hst' hc' hb'

/-- **The graph is a function of the set of events.**  A run over any list ends in the graph of the
set of its members, or is refused for a shared identity prefix or a full counter; so runs over two
lists with the same members end in the same tables. -/
theorem insertAll_graphOf (vs : List VerifiedEvent) (hcf : CollisionFree {v | v ∈ vs})
    (hself : ∀ v ∈ vs, NoSelfParent v) :
    Ensures (insertAll {} vs) (GraphOf {v | v ∈ vs}) (fun e => IsCollision e ∨ IsCounterFull e) ∧
      ∀ vs' t t', (∀ v, v ∈ vs ↔ v ∈ vs') → insertAll {} vs = .ok t → insertAll {} vs' = .ok t' →
        t.events = t'.events ∧ t.eventsHeads = t'.eventsHeads ∧
          t.eventsMissing = t'.eventsMissing ∧ t.eventsByTime = t'.eventsByTime := by
  have hrun : ∀ ws : List VerifiedEvent, (∀ v, v ∈ vs ↔ v ∈ ws) →
      Ensures (insertAll {} ws) (GraphOf {v | v ∈ vs})
        (fun e => IsCollision e ∨ IsCounterFull e) := by
    intro ws hws
    have hset : ∅ ∪ {v | v ∈ ws} = {v | v ∈ vs} := by
      ext v
      simp [hws]
    have := insertAll_run ws ∅ {} (by rw [hset]; exact hcf) (fun v hv => hself v ((hws v).mpr hv))
      storedIs_empty statesStored_empty canonical_empty balanced_empty
    rw [hset] at this
    exact this.mono (fun t ht => ht.2.graphOf ht.1) fun _ h => h
  refine ⟨hrun vs fun _ => Iff.rfl, fun vs' t t' hmem ht ht' => ?_⟩
  exact ((hrun vs fun _ => Iff.rfl).of_ok ht).unique ((hrun vs' hmem).of_ok ht')

end Insertions

section Sample

attribute [local instance] Primitives.reference

/-- A deleter before its target, and the target twice. -/
def sampleInsertions : List VerifiedEvent :=
  [.ofEvent sampleDeletion, .ofEvent samplePost, .ofEvent samplePost]

/-- The graph of three insertions is that of the two events. -/
theorem insertAll_graphOf_sample :
    (insertAll {} sampleInsertions).isOk = true ∧
      Ensures (insertAll {} sampleInsertions) (GraphOf {v | v ∈ sampleInsertions})
        (fun e => IsCollision e ∨ IsCounterFull e) := by
  refine ⟨by decide +kernel, (insertAll_graphOf sampleInsertions ?_ (by decide)).1⟩
  have hinj : ∀ v ∈ sampleInsertions, ∀ w ∈ sampleInsertions, v.id = w.id → v = w := by decide
  exact fun v hv w hw => hinj v hv w hw

end Sample

end Rostra.Db
