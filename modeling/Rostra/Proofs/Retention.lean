/-
# The retention index

Four tables that say one thing: `reverse` has a row for each post that can be evicted, and every other
row belongs to one of these.  A post that is still in its grace interval has a row in `grace`; once
promoted it has one row in the global order and one in its author's, under the same key.

* `IndexOwned` is that ownership, and it needs nothing but two facts: rows are written and removed
  together, and a key ends in the id of its event, so two events never share one (`KeysNamed`).
* `retentionEntry` is the row an event should have under a policy.  `StageExact` says how far the
  index has come: after `Clearing` no old row is left, behind the cursor every row is the right one,
  ahead of it a row is the right one or not there yet.
* A reducer changes what the entry of an event depends on for the events of its snapshot only, and
  exactly these are refreshed when the bracket ends.

A policy can change at any cursor position; the clearing stage takes every old row away first.
-/
import Rostra.Lib.Index
import Rostra.Proofs.Pieces

namespace Rostra.Db

open Rostra Outcome

/-! ## 1. Ownership

Nothing in this section knows what the rows mean. It is about keys: a key of the ordered tables ends in the id of
its event, so a row can be traced back, and two owners cannot want the same key. -/

/-- The grace row of an entry that is not promoted. -/
def graceRow (id : ShortEventId) (entry : IndexEntry) : Option (ℕ ×ₗ ShortEventId) :=
  if entry.promoted then none else some (toLex (entry.eligibleAt, id))

/-- The key of a promoted entry in the global order. -/
def globalKey (entry : IndexEntry) : Option ℕ := if entry.promoted then some entry.key else none

/-- The same key in the order of its author. -/
def authorKey (entry : IndexEntry) : Option (RostraId × ℕ) :=
  if entry.promoted then some (entry.author, entry.key) else none

/-- **Every row has one owner, and every owner has its rows.** The grace rows are contributions of their owners,
and the ordered tables are inverses of the map from an owner to its key. -/
structure IndexOwned (r : RetentionIndex) : Prop where
  grace : Index.Contributed r.reverse.get graceRow r.grace
  global : Index.Inverse (fun id => (r.reverse.get id).bind globalKey) r.global
  author : Index.Inverse (fun id => (r.reverse.get id).bind authorKey) r.author

/-- The event a key belongs to: the first half of the last 32 bytes. -/
def keyOwner (key : ℕ) : ShortEventId := key % 2 ^ 256 / 2 ^ 128

def KeysNamed (r : RetentionIndex) : Prop :=
  ∀ id entry, r.reverse.get id = some entry → keyOwner entry.key = id

theorem indexOwned_empty : IndexOwned {} := by
  refine ⟨?_, ?_, ?_⟩
  · intro row
    simp
  · intro k x
    simp
  · intro k x
    simp

/-- A grace row tells whose it is. -/
theorem graceRow_keyed : Index.Keyed graceRow := by
  intro id entry id' entry' row h h'
  unfold graceRow at h h'
  split at h
  · cases h
  split at h'
  · cases h'
  exact congrArg (fun row => (ofLex row).2) (Option.some.inj (h.trans h'.symm))

/-- A change of one row, seen through a function of the row. -/
theorem bind_update {X B : Type} (s : ShortEventId → Option X) (g : X → Option B) (id : ShortEventId)
    (x : Option X) : (fun id' => (Function.update s id x id').bind g) =
      Function.update (fun id' => (s id').bind g) id (x.bind g) := by
  funext id'
  by_cases hid : id' = id
  · subst hid
    simp
  · simp [hid]

section Ownership

variable {r : RetentionIndex} {id : ShortEventId} {entry : IndexEntry}

/-- **A row in grace** is added with its owner. -/
theorem IndexOwned.putGrace (h : IndexOwned r) (hnone : r.reverse.get id = none)
    (hp : entry.promoted = false) : IndexOwned { r with
      grace := insert (toLex (entry.eligibleAt, id)) r.grace
      reverse := r.reverse.insert id entry } := by
  refine ⟨h.grace.insertRow hnone (by simp [graceRow, hp]), ?_, ?_⟩
  · have hbind : (fun id' => ((r.reverse.insert id entry).get id').bind globalKey) =
        fun id' => (r.reverse.get id').bind globalKey := by
      rw [Table.get_insert_eq, bind_update]
      refine Function.update_eq_self_iff.mpr ?_
      simp [globalKey, hp, hnone]
    dsimp only
    rw [hbind]
    exact h.global
  · have hbind : (fun id' => ((r.reverse.insert id entry).get id').bind authorKey) =
        fun id' => (r.reverse.get id').bind authorKey := by
      rw [Table.get_insert_eq, bind_update]
      refine Function.update_eq_self_iff.mpr ?_
      simp [authorKey, hp, hnone]
    dsimp only
    rw [hbind]
    exact h.author

/-- No other event has the key. -/
theorem IndexOwned.key_free (h : IndexOwned r) (hn : KeysNamed r) (hnone : r.reverse.get id = none)
    (hkey : keyOwner entry.key = id) :
    r.global.get entry.key = none ∧ r.author.get (entry.author, entry.key) = none := by
  have hno : ∀ id' entry', r.reverse.get id' = some entry' → entry'.key ≠ entry.key := by
    intro id' entry' hrow heq
    have hid := hn id' entry' hrow
    rw [heq, hkey] at hid
    rw [← hid, hnone] at hrow
    cases hrow
  constructor
  · refine Option.eq_none_iff_forall_ne_some.mpr fun id' hget => ?_
    obtain ⟨entry', hrow, hk⟩ := Option.bind_eq_some_iff.mp ((h.global id' entry.key).mpr hget)
    unfold globalKey at hk
    split at hk
    · exact hno id' entry' hrow (Option.some.inj hk)
    · cases hk
  · refine Option.eq_none_iff_forall_ne_some.mpr fun id' hget => ?_
    obtain ⟨entry', hrow, hk⟩ :=
      Option.bind_eq_some_iff.mp ((h.author id' (entry.author, entry.key)).mpr hget)
    unfold authorKey at hk
    split at hk
    · exact hno id' entry' hrow (congrArg Prod.snd (Option.some.inj hk))
    · cases hk

/-- **Ordered rows** are added with their owner. -/
theorem IndexOwned.putOrdered (h : IndexOwned r) (hn : KeysNamed r) (hnone : r.reverse.get id = none)
    (hkey : keyOwner entry.key = id) (hp : entry.promoted = true) : IndexOwned { r with
      global := r.global.insert entry.key id
      author := r.author.insert (entry.author, entry.key) id
      reverse := r.reverse.insert id entry } := by
  obtain ⟨hglobal, hauthor⟩ := h.key_free hn hnone hkey
  refine ⟨?_, ?_, ?_⟩
  · have hadd := h.grace.add hnone entry
    have hrow : graceRow id entry = none := by simp [graceRow, hp]
    rw [hrow, Option.toFinset_none, Finset.union_empty, ← Table.get_insert_eq] at hadd
    exact hadd
  · dsimp only
    rw [Table.get_insert_eq, bind_update]
    have hset := h.global.set (k := id) (by simp [hnone]) hglobal
    simpa [globalKey, hp] using hset
  · dsimp only
    rw [Table.get_insert_eq, bind_update]
    have hset := h.author.set (k := id) (by simp [hnone]) hauthor
    simpa [authorKey, hp] using hset

/-- **Removing an entry** takes exactly its rows away, and finds them. The code treats a row that is not there as
corruption. -/
theorem removeRetentionEntryTx_owned (h : IndexOwned r) (id : ShortEventId) :
    Ensures (removeRetentionEntryTx r id)
      (fun r' => IndexOwned r' ∧ r'.state = r.state ∧ r'.reverse = r.reverse.remove id)
      (fun _ => False) := by
  unfold removeRetentionEntryTx
  split
  · next hnone => exact ⟨h, rfl, (Table.remove_absent hnone).symm⟩
  next entry hrow =>
  dsimp only
  split
  · next hp =>
    have hg : (r.reverse.get id).bind globalKey = some entry.key := by simp [hrow, globalKey, hp]
    have ha : (r.reverse.get id).bind authorKey = some (entry.author, entry.key) := by
      simp [hrow, authorKey, hp]
    split
    · next hbad =>
      rcases hbad with hbad | hbad
      · exact hbad ((h.global id entry.key).mp hg)
      · exact hbad ((h.author id (entry.author, entry.key)).mp ha)
    · refine ⟨⟨?_, ?_, ?_⟩, rfl, rfl⟩
      · have hrm := h.grace.remove graceRow_keyed hrow
        have hrow' : graceRow id entry = none := by simp [graceRow, hp]
        rw [hrow', Option.toFinset_none, Finset.sdiff_empty, ← Table.get_remove_eq] at hrm
        exact hrm
      · dsimp only
        rw [Table.get_remove_eq, bind_update]
        exact h.global.clear hg
      · dsimp only
        rw [Table.get_remove_eq, bind_update]
        exact h.author.clear ha
  · next hp =>
    have hrow' : graceRow id entry = some (toLex (entry.eligibleAt, id)) := by simp [graceRow, hp]
    split
    · next hbad => exact hbad (h.grace.mem hrow hrow')
    · refine ⟨⟨h.grace.removeRow graceRow_keyed hrow hrow', ?_, ?_⟩, rfl, rfl⟩
      · dsimp only
        rw [Table.get_remove_eq, bind_update,
          Function.update_eq_self_iff.mpr (by simp [hrow, globalKey, hp])]
        exact h.global
      · dsimp only
        rw [Table.get_remove_eq, bind_update,
          Function.update_eq_self_iff.mpr (by simp [hrow, authorKey, hp])]
        exact h.author

/-- **Promotion** finds an unpromoted owner for the first due row, and exchanges its rows. The key is free in both
orders, as it ends in the id. -/
theorem IndexOwned.promote (h : IndexOwned r) (hn : KeysNamed r) {row : ℕ ×ₗ ShortEventId}
    (hrow : row ∈ r.grace) : ∃ entry, r.reverse.get (ofLex row).2 = some entry ∧
      entry.promoted = false ∧ entry.eligibleAt = (ofLex row).1 ∧
      IndexOwned { r with
        grace := r.grace.erase row
        global := r.global.insert entry.key (ofLex row).2
        author := r.author.insert (entry.author, entry.key) (ofLex row).2
        reverse := r.reverse.insert (ofLex row).2 { entry with promoted := true } } := by
  obtain ⟨id, entry, hid, hgrace⟩ := (h.grace row).mp hrow
  have hgrace' := hgrace
  unfold graceRow at hgrace'
  split at hgrace'
  · cases hgrace'
  next hp =>
  cases hgrace'
  refine ⟨entry, hid, by simpa using hp, rfl, ?_⟩
  have hremoved := removeRetentionEntryTx_owned h id
  simp only [removeRetentionEntryTx, hid, hp, hrow, not_true_eq_false, ↓reduceIte, Bool.false_eq_true,
    ensures_ok] at hremoved
  have hn' : KeysNamed { r with
      reverse := r.reverse.remove id, grace := r.grace.erase (toLex (entry.eligibleAt, id)) } := by
    intro id' entry' hget
    rw [Table.get_remove] at hget
    split at hget
    · cases hget
    · exact hn id' entry' hget
  have hkey : keyOwner ({ entry with promoted := true } : IndexEntry).key = id := hn id entry hid
  have hput := hremoved.1.putOrdered hn' (Table.get_remove_self ..) hkey rfl
  have hback : (r.reverse.remove id).insert id { entry with promoted := true } =
      r.reverse.insert id { entry with promoted := true } := by
    refine Table.ext fun k => ?_
    rw [Table.get_insert_eq, Table.get_insert_eq, Table.get_remove_eq, Function.update_idem]
  rw [hback] at hput
  exact hput

end Ownership

/-! ## 2. The row an event should have

`Eligible` is a condition on the source tables, and `RowExact` compares the row of one event with it. The code
derives the entry by a chain of early returns; each of them is one clause of `Eligible` that fails. -/

section Entry

variable [Primitives] {D : Set VerifiedEvent} {Q : Set QuotaPruneRequest} {env : Env}
  {db db₁ db' : Database} {r : RetentionIndex}

/-- The event ids of `D` are 256 bits, two halves of 128. -/
def FullIds (D : Set VerifiedEvent) : Prop :=
  ∀ v ∈ D, (ofLex v.eventId).1 < 2 ^ 128 ∧ (ofLex v.eventId).2 < 2 ^ 128

/-- **What an eligible event is**: a processed nonempty remote post whose first materialization is
known, and whose deadline is a timestamp. -/
structure Eligible (env : Env) (policy : RetentionPolicy) (db : Database) (id : ShortEventId)
    (e : Event) (origins : RetentionOrigins) (first : Timestamp) : Prop where
  stored : db.ev.events.get id = some e
  processed : contentClass db.ev id = .current
  remote : e.author ≠ env.selfId
  kind : e.kind = EventKind.SOCIAL_POST
  nonempty : 0 < e.contentLen
  received : db.origins.get id = some origins
  materialized : origins.materializedAt = some first
  deadline : first + policy.graceSeconds ≤ u64Max

/-- Its row, before promotion. -/
def entryFor (env : Env) (policy : RetentionPolicy) (e : Event) (origins : RetentionOrigins)
    (first : Timestamp) : IndexEntry :=
  { author := e.author
    key := policy.key (computeId e) env.selfId e.contentLen origins.effectiveTimestamp
    eligibleAt := max (first + policy.graceSeconds) origins.effectiveTimestamp
    promoted := false }

/-- A row without its promotion. -/
def rowOf (r : RetentionIndex) (id : ShortEventId) : Option IndexEntry :=
  (r.reverse.get id).map fun entry => { entry with promoted := false }

/-- The row is the one the policy asks for. -/
def RowExact (env : Env) (policy : RetentionPolicy) (db : Database) (r : RetentionIndex)
    (id : ShortEventId) : Prop :=
  ∀ x, rowOf r id = some x ↔
    ∃ e origins first, Eligible env policy db id e origins first ∧ x = entryFor env policy e origins first

omit [Primitives] in
theorem Eligible.unique {policy : RetentionPolicy} {id : ShortEventId} {e e' : Event}
    {origins origins' : RetentionOrigins} {first first' : Timestamp}
    (h : Eligible env policy db id e origins first)
    (h' : Eligible env policy db id e' origins' first') : e = e' ∧ origins = origins' ∧ first = first' := by
  obtain rfl := Option.some.inj (h.stored.symm.trans h'.stored)
  obtain rfl := Option.some.inj (h.received.symm.trans h'.received)
  exact ⟨rfl, rfl, Option.some.inj (h.materialized.symm.trans h'.materialized)⟩

omit [Primitives] in
theorem Eligible.congr {policy : RetentionPolicy} {id : ShortEventId} {e : Event}
    {origins : RetentionOrigins} {first : Timestamp} (h : Eligible env policy db id e origins first)
    (hev : db'.ev.events.get id = db.ev.events.get id)
    (hclass : contentClass db'.ev id = contentClass db.ev id)
    (horigins : db'.origins.get id = db.origins.get id) :
    Eligible env policy db' id e origins first :=
  ⟨hev.trans h.stored, hclass.trans h.processed, h.remote, h.kind, h.nonempty,
    horigins.trans h.received, h.materialized, h.deadline⟩

/-- What the entry of an event depends on. -/
structure SameEntry (db db' : Database) (id : ShortEventId) : Prop where
  header : db'.ev.events.get id = db.ev.events.get id
  processed : contentClass db'.ev id = contentClass db.ev id
  origins : db'.origins.get id = db.origins.get id

theorem RowExact.congr {policy : RetentionPolicy} {r' : RetentionIndex} {id : ShortEventId}
    (h : RowExact env policy db r id) (hs : SameEntry db db' id)
    (hrow : r'.reverse.get id = r.reverse.get id) : RowExact env policy db' r' id := by
  intro x
  rw [rowOf, hrow, ← rowOf, h x]
  constructor
  · rintro ⟨e, o, first, hel, rfl⟩
    exact ⟨e, o, first, hel.congr hs.header hs.processed hs.origins, rfl⟩
  · rintro ⟨e, o, first, hel, rfl⟩
    exact ⟨e, o, first, hel.congr hs.header.symm hs.processed.symm hs.origins.symm, rfl⟩

/-- A key ends in the id of its event. -/
theorem key_owner {e : Event} (hid : (ofLex (computeId e)).1 < 2 ^ 128 ∧ (ofLex (computeId e)).2 < 2 ^ 128)
    (policy : RetentionPolicy) (holder : RostraId) (len : ℕ) (ts : Timestamp) :
    keyOwner (policy.key (computeId e) holder len ts) = (VerifiedEvent.ofEvent e).id := by
  have hlt : RetentionPolicy.eventIdNumber (computeId e) < 2 ^ 256 := by
    unfold RetentionPolicy.eventIdNumber
    omega
  unfold keyOwner RetentionPolicy.key
  dsimp only
  rw [Nat.mul_comm, Nat.mul_add_mod, Nat.mod_eq_of_lt hlt]
  show _ = (ofLex (computeId e)).1
  unfold RetentionPolicy.eventIdNumber
  omega

/-- **Deriving an entry** never fails, and finds the row of an eligible event. A deadline that would overflow makes
the event ineligible. -/
theorem deriveRetentionEntryTx_spec (hk : KeyedBy D db.ev) {generation : RetentionGeneration}
    (hholder : generation.holder = env.selfId) (id : ShortEventId) :
    Ensures (deriveRetentionEntryTx env db generation id)
      (fun next => ∀ x, next.map (·.1) = some x ↔ ∃ e origins first,
        Eligible env generation.policy db id e origins first ∧
          x = entryFor env generation.policy e origins first) (fun _ => False) := by
  -- without an eligible event there is nothing to derive
  have hno : (∀ e o first, ¬Eligible env generation.policy db id e o first) →
      ∀ x, (none : Option (IndexEntry × EventId)).map (·.1) = some x ↔ ∃ e origins first,
        Eligible env generation.policy db id e origins first ∧
          x = entryFor env generation.policy e origins first := by
    intro h x
    constructor
    · intro hx
      cases hx
    · rintro ⟨e, o, first, hel, -⟩
      exact absurd hel (h e o first)
  unfold deriveRetentionEntryTx
  dsimp only
  rw [if_neg (by simp [hholder])]
  split
  · next hnone =>
    refine hno fun e o first hel => ?_
    rw [hel.stored] at hnone
    cases hnone
  next e he =>
  split
  · next hgate =>
    refine hno fun e' o first hel => ?_
    rw [hel.stored] at he
    cases he
    rcases hgate with h | h | h | h
    · exact hel.remote h
    · exact h hel.kind
    · exact absurd hel.nonempty (by omega)
    · rw [classOf_eq_current.mp hel.processed] at h
      cases h
  next hgate =>
  simp only [not_or, not_not] at hgate
  split
  · next hnone =>
    refine hno fun e' o first hel => ?_
    rw [hel.received] at hnone
    cases hnone
  next origins horigins =>
  split
  · next hnone =>
    refine hno fun e' o first hel => ?_
    obtain rfl := Option.some.inj (horigins.symm.trans hel.received)
    rw [hel.materialized] at hnone
    cases hnone
  next first hfirst =>
  split
  · next hdeadline =>
    refine hno fun e' o first' hel => ?_
    obtain rfl := Option.some.inj (horigins.symm.trans hel.received)
    obtain rfl := Option.some.inj (hfirst.symm.trans hel.materialized)
    exact absurd hel.deadline (Nat.not_le.mpr hdeadline)
  next hdeadline =>
  rw [if_neg (by simp [hk.id_eq he])]
  have hel : Eligible env generation.policy db id e origins first :=
    ⟨he, classOf_eq_current.mpr (by simpa using hgate.2.2.2), hgate.1, hgate.2.1,
      Nat.pos_of_ne_zero hgate.2.2.1, horigins, hfirst, Nat.not_lt.mp hdeadline⟩
  intro x
  constructor
  · intro hx
    exact ⟨e, origins, first, hel, (Option.some.inj hx).symm⟩
  · rintro ⟨e', o, first', hel', rfl⟩
    obtain ⟨rfl, rfl, rfl⟩ := hel.unique hel'
    rfl

/-! ## 3. One refresh

A refresh derives the entry, removes the old rows and writes the new ones, unless nothing changed. Deriving and
removing may fail in the code, with an error that calls the index corrupt; neither does. -/

/-- The index belongs to this account. -/
def HeldBy (env : Env) (r : RetentionIndex) : Prop :=
  ∀ record, r.state = some record → record.generation.holder = env.selfId

/-- What one refresh does. -/
structure Refreshed (env : Env) (db : Database) (r : RetentionIndex) (id : ShortEventId)
    (r' : RetentionIndex) : Prop where
  owned : IndexOwned r'
  named : KeysNamed r'
  state : r'.state = r.state
  other : ∀ id', id' ≠ id → r'.reverse.get id' = r.reverse.get id'
  exact : ∀ record, r.state = some record → record.stage ≠ .clearing →
    RowExact env record.generation.policy db r' id
  /-- Nothing is indexed before a generation is configured. -/
  unset : r.state = none → r' = r

/-- **A refresh never fails**, and leaves the event with the row it should have. A promoted row that is still right
keeps its promotion. -/
theorem refreshRetentionIndexTx_spec (hk : KeyedBy D db.ev) (hids : FullIds D) (ho : IndexOwned r)
    (hn : KeysNamed r) (hh : HeldBy env r) (id : ShortEventId) :
    Ensures (refreshRetentionIndexTx env db r id) (Refreshed env db r id) (fun _ => False) := by
  unfold refreshRetentionIndexTx
  split
  · next hstate =>
    refine ⟨ho, hn, rfl, fun _ _ => rfl, fun record hrecord => ?_, fun _ => rfl⟩
    rw [hstate] at hrecord
    cases hrecord
  next record hstate =>
  have hset : ∀ {r' : RetentionIndex}, r.state = none → r' = r := by
    intro r' hnone
    rw [hstate] at hnone
    cases hnone
  split
  · next hclearing =>
    refine ⟨ho, hn, rfl, fun _ _ => rfl, fun record' hrecord' hne => ?_, hset⟩
    rw [hstate] at hrecord'
    cases hrecord'
    exact absurd hclearing hne
  refine (deriveRetentionEntryTx_spec hk (hh record hstate) id).bind fun next hnext => ?_
  dsimp only
  split
  · next hsame =>
    refine ⟨ho, hn, rfl, fun _ _ => rfl, fun record' hrecord' _ => ?_, hset⟩
    rw [hstate] at hrecord'
    cases hrecord'
    intro x
    rw [← hnext x, ← hsame.1]
    rfl
  refine (removeRetentionEntryTx_owned ho id).bind fun r₁ ⟨ho₁, hstate₁, hreverse⟩ => ?_
  have hother : ∀ id', id' ≠ id → r₁.reverse.get id' = r.reverse.get id' := by
    intro id' hne
    rw [hreverse, Table.get_remove_of_ne _ hne]
  have hgone : r₁.reverse.get id = none := by
    rw [hreverse, Table.get_remove_self]
  have hn₁ : KeysNamed r₁ := by
    intro id' entry hget
    by_cases hid : id' = id
    · subst hid
      rw [hgone] at hget
      cases hget
    · rw [hother id' hid] at hget
      exact hn id' entry hget
  split
  · next entry hentry =>
    obtain ⟨e, origins, first, hel, heq⟩ := (hnext entry).mp hentry
    have hkey : keyOwner entry.key = id := by
      rw [heq, ← hk.id_eq hel.stored]
      have hfull := hids _ (hk.mem hel.stored)
      exact key_owner hfull _ _ _ _
    have hp : entry.promoted = false := by rw [heq]; rfl
    refine ⟨ho₁.putGrace hgone hp, ?_, hstate₁, fun id' hne => ?_, fun record' hrecord' _ => ?_, hset⟩
    · intro id' entry' hget
      rw [Table.get_insert] at hget
      split at hget
      · next hid =>
        cases hget
        rw [hid]
        exact hkey
      · exact hn₁ id' entry' hget
    · rw [Table.get_insert_of_ne _ _ hne]
      exact hother id' hne
    · rw [hstate] at hrecord'
      cases hrecord'
      intro x
      rw [← hnext x, hentry, rowOf, Table.get_insert_self]
      simp [← hp]
  · next hnone =>
    refine ⟨ho₁, hn₁, hstate₁, hother, fun record' hrecord' _ => ?_, hset⟩
    rw [hstate] at hrecord'
    cases hrecord'
    intro x
    rw [← hnext x, hnone, rowOf, hgone]
    rfl

/-! ## 4. How far the index has come

The record of the index has a stage and a cursor. What is promised of a row depends on both, and the invariant of a
run is ownership together with this promise. -/

/-- The rows of an index with this record. -/
def StageExact (env : Env) (db : Database) (r : RetentionIndex) (record : IndexRecord) : Prop :=
  match record.stage with
  | .clearing => True
  | .events cursor => ∀ id, RowExact env record.generation.policy db r id ∨
      (r.reverse.get id = none ∧ Table.passed cursor id = false)
  | .ready => ∀ id, RowExact env record.generation.policy db r id

/-- **The invariant of the index**: ownership, and what is promised at the stage the record shows. -/
structure Indexed (env : Env) (db : Database) (r : RetentionIndex) : Prop where
  owned : IndexOwned r
  named : KeysNamed r
  held : HeldBy env r
  unset : r.state = none → ∀ id, r.reverse.get id = none
  stage : ∀ record, r.state = some record → StageExact env db r record

theorem indexed_empty (env : Env) : Indexed env {} {} := by
  refine ⟨indexOwned_empty, fun id entry h => ?_, fun record h => ?_, fun _ _ => rfl,
    fun record h => ?_⟩
  · simp at h
  · cases h
  · cases h

/-- A row that is absent, for an event that is not stored. -/
theorem rowExact_absent {policy : RetentionPolicy} {id : ShortEventId}
    (hrow : r.reverse.get id = none) (hev : db.ev.events.get id = none) :
    RowExact env policy db r id := by
  intro x
  rw [rowOf, hrow]
  constructor
  · intro hx
    cases hx
  · rintro ⟨e, o, first, hel, -⟩
    rw [hel.stored] at hev
    cases hev

/-- Rows stay exact where neither they nor what they depend on changes. -/
theorem StageExact.congr {r' : RetentionIndex} {record : IndexRecord}
    (h : StageExact env db r record)
    (hchange : ∀ id, (SameEntry db db' id ∧ r'.reverse.get id = r.reverse.get id) ∨
      (record.stage ≠ .clearing → RowExact env record.generation.policy db' r' id)) :
    StageExact env db' r' record := by
  unfold StageExact at h ⊢
  split
  · trivial
  · next cursor hstage =>
    rw [hstage] at h
    intro id
    rcases hchange id with ⟨hsame, hrow⟩ | hexact
    · rcases h id with hexact | ⟨hnone, hpassed⟩
      · exact .inl (hexact.congr hsame hrow)
      · exact .inr ⟨hrow.trans hnone, hpassed⟩
    · exact .inl (hexact (by simp [hstage]))
  · next hstage =>
    rw [hstage] at h
    intro id
    rcases hchange id with ⟨hsame, hrow⟩ | hexact
    · exact (h id).congr hsame hrow
    · exact hexact (by simp [hstage])

theorem Indexed.congr (h : Indexed env db r) (hsame : ∀ id, SameEntry db db' id) :
    Indexed env db' r :=
  ⟨h.owned, h.named, h.held, h.unset, fun record hrecord =>
    (h.stage record hrecord).congr fun id => .inl ⟨hsame id, rfl⟩⟩

/-! ## 5. Around a reducer

A bracket refreshes the events of its snapshot. That this is enough is a frame property: whatever a row depends on
does not change for other events. -/

/-- The events of the snapshot have been refreshed, and no others. -/
structure RefreshedAll (env : Env) (db : Database) (r : RetentionIndex) (ids : List ShortEventId)
    (r' : RetentionIndex) : Prop where
  owned : IndexOwned r'
  named : KeysNamed r'
  state : r'.state = r.state
  other : ∀ id, id ∉ ids → r'.reverse.get id = r.reverse.get id
  exact : ∀ id ∈ ids, ∀ record, r.state = some record → record.stage ≠ .clearing →
    RowExact env record.generation.policy db r' id
  unset : r.state = none → r' = r

theorem RefreshedAll.snoc {ids : List ShortEventId} {r₁ r₂ : RetentionIndex} {id : ShortEventId}
    (h : RefreshedAll env db r ids r₁) (h' : Refreshed env db r₁ id r₂) :
    RefreshedAll env db r (ids ++ [id]) r₂ := by
  refine ⟨h'.owned, h'.named, h'.state.trans h.state, fun id' hid' => ?_, fun id' hid' record hrecord
    hne => ?_, fun hnone => ?_⟩
  · simp only [List.mem_append, List.mem_singleton, not_or] at hid'
    rw [h'.other id' hid'.2, h.other id' hid'.1]
  · by_cases hid : id' = id
    · subst hid
      exact h'.exact record (h.state.trans hrecord) hne
    · have hmem : id' ∈ ids := by simpa [hid] using hid'
      exact (h.exact id' hmem record hrecord hne).congr ⟨rfl, rfl, rfl⟩ (h'.other id' hid)
  · rw [h'.unset (by rw [h.state]; exact hnone), h.unset hnone]

/-- **The end of a bracket** refreshes the events of its snapshot, and the index never objects. The accounting may,
so an error is one of those. -/
theorem payloadAfterTx_refreshed (hk : KeyedBy D db₁.ev) (hids : FullIds D)
    (ho : IndexOwned db₁.retention) (hn : KeysNamed db₁.retention) (hh : HeldBy env db₁.retention)
    (before : PayloadBefore) :
    Ensures (payloadAfterTx env db₁ before)
      (fun db₂ => RefreshedAll env db₁ db₁.retention (before.events.map Prod.fst) db₂.retention)
      IsAccountingError := by
  unfold payloadAfterTx
  have hevents := Ensures.foldlM_history (f := afterEventTx env db₁) (E := IsAccountingError)
    (J := fun done s => RefreshedAll env db₁ db₁.retention (done.map Prod.fst) s.retention)
    before.events [] ⟨db₁.accounting, accountingTx db₁.accounting, db₁.retention, []⟩
    (fun item _ done s hs => ?_)
    ⟨ho, hn, rfl, fun _ _ => rfl, fun id hid => by simp at hid, fun _ => rfl⟩
  · refine hevents.bind fun s hs => ?_
    refine Ensures.bind (whenReadyTx_counting _ (.forM (validateAuthorTx_counting _ _) _))
      fun _ _ => ?_
    refine Ensures.bind (Raises.foldlM (afterHashTx_counting db₁.ev) _ _) fun x _ => ?_
    exact hs
  · unfold afterEventTx
    have hheld : HeldBy env s.retention := by
      intro record hrecord
      exact hh record (hs.state ▸ hrecord)
    have hrefresh := refreshRetentionIndexTx_spec hk hids hs.owned hs.named hheld item.1
    refine (hrefresh.mono (fun _ h => h) fun _ h => h.elim).bind fun r' hr' => ?_
    have hdone : RefreshedAll env db₁ db₁.retention ((done ++ [item]).map Prod.fst) r' := by
      rw [List.map_append]
      exact hs.snoc hr'
    split
    · refine Ensures.bind (contributionTx_counting env _ _) fun new _ => ?_
      refine Ensures.bind (adjustOptionTx_counting _ _ _ _) fun x _ => ?_
      exact Ensures.bind (adjustOptionTx_counting _ _ _ _) fun _ _ => hdone
    · exact hdone

/-- Outside its snapshot a reducer leaves alone what an entry depends on. -/
theorem Footprint.sameEntry {v : VerifiedEvent} (h : Footprint db v db₁) {id : ShortEventId}
    (hid : id ∉ affectedIds v) : SameEntry db db₁ id := by
  have hne : id ≠ v.id := by
    rintro rfl
    exact hid (mem_affectedIds_self v)
  refine ⟨?_, ?_, h.origins id hne⟩
  · rcases h.headers with heq | ⟨-, heq⟩
    · rw [heq]
    · rw [heq, Table.get_insert_of_ne _ _ hne]
  · rw [contentClass, h.states id hid, ← contentClass]

omit [Primitives] in
theorem Requeued.sameEntry {t : EventTables} (h : Requeued db.ev t) (id : ShortEventId) :
    SameEntry db { db with ev := t } id :=
  ⟨by rw [h.eq], h.classes id, rfl⟩

omit [Primitives] in
theorem Aside.sameEntry (h : Aside db db') (id : ShortEventId) : SameEntry db db' id :=
  ⟨by rw [h.eq], h.classes id, by rw [h.eq]⟩

theorem Reducer.indexedAfter {v : VerifiedEvent} {before : PayloadBefore} (hg : Grounded D db.ev)
    (hids : FullIds D) (hi : Indexed env db db.retention)
    (hbefore : payloadBeforeTx env db.ev v = .ok before) (hred : Reducer env D Q db v db₁) :
    Ensures (payloadAfterTx env db₁ before) (fun db₂ => Indexed env db₁ db₂.retention)
      IsAccountingError := by
  have hfoot := hred.footprint hg
  have hbids := ((payloadBeforeTx_ids env db.ev v).of_ok hbefore).1
  have hsame : db₁.retention = db.retention := hfoot.retention
  refine (payloadAfterTx_refreshed (hred.keyedBy hg) hids (hsame ▸ hi.owned) (hsame ▸ hi.named)
    (hsame ▸ hi.held) before).mono (fun db₂ h₂ => ?_) fun _ h => h
  rw [hbids, hsame] at h₂
  refine ⟨h₂.owned, h₂.named, fun record hrecord => hi.held record (h₂.state ▸ hrecord),
    fun hnone id => ?_, fun record hrecord => ?_⟩
  · have hstate : db.retention.state = none := h₂.state ▸ hnone
    rw [h₂.unset hstate]
    exact hi.unset hstate id
  · have hstate : db.retention.state = some record := h₂.state ▸ hrecord
    refine (hi.stage record hstate).congr fun id => ?_
    by_cases hid : id ∈ affectedIds v
    · exact .inr (h₂.exact id hid record hstate)
    · exact .inl ⟨hfoot.sameEntry hid, h₂.other id hid⟩

/-! ## 6. Rebuilding

One turn clears a row or visits a header. The record in memory runs ahead of the stored one and is written when the
turns of a call are over. -/

/-- The state of the loop: the record runs ahead of the stored one within its stage. -/
structure Rebuilding (env : Env) (db : Database) (r : RetentionIndex) (record : IndexRecord) : Prop where
  owned : IndexOwned r
  named : KeysNamed r
  stored : ∃ stage, r.state = some ⟨record.generation, stage⟩ ∧
    (stage = .clearing ↔ record.stage = .clearing)
  holder : record.generation.holder = env.selfId
  stage : StageExact env db r record

theorem Rebuilding.indexed {record : IndexRecord} (h : Rebuilding env db r record) :
    Indexed env db { r with state := some record } := by
  refine ⟨⟨h.owned.grace, h.owned.global, h.owned.author⟩, h.named, fun record' hrecord' => ?_,
    fun hnone => ?_, fun record' hrecord' => ?_⟩
  · cases hrecord'
    exact h.holder
  · cases hnone
  · cases hrecord'
    exact h.stage

/-- **One turn of the rebuild** never fails: it clears a row, or refreshes the next header, or changes the stage.
-/
theorem rebuildRetentionStep_rebuilding (hk : KeyedBy D db.ev) (hids : FullIds D)
    {record : IndexRecord} (h : Rebuilding env db r record) :
    Ensures (rebuildRetentionStep env db r record) (fun x => Rebuilding env db x.1 x.2.1)
      (fun _ => False) := by
  obtain ⟨ho, hn, ⟨stage, hstate, hiff⟩, hholder, hexact⟩ := h
  unfold rebuildRetentionStep
  unfold StageExact at hexact
  split
  · next hstage =>
    split
    · next hleast =>
      have hempty : ∀ id, r.reverse.get id = none := by
        intro id
        refine Option.eq_none_iff_forall_ne_some.mpr fun entry hget => ?_
        have hmem := Table.mem_keys_of_get hget
        rw [Table.least_none hleast] at hmem
        simp at hmem
      refine ⟨⟨ho.grace, ho.global, ho.author⟩, hn, ⟨_, rfl, by simp⟩, hholder, fun id => ?_⟩
      exact .inr ⟨hempty id, rfl⟩
    · next id _ =>
      refine (removeRetentionEntryTx_owned ho id).bind fun r' ⟨ho', hstate', hreverse⟩ => ?_
      refine ⟨ho', fun id' entry hget => ?_, ⟨stage, by rw [hstate', hstate], hiff⟩, hholder, ?_⟩
      · rw [hreverse, Table.get_remove] at hget
        split at hget
        · cases hget
        · exact hn id' entry hget
      · unfold StageExact
        simp only [hstage]
  · next cursor hstage =>
    rw [hstage] at hexact
    split
    · next hnext =>
      refine ⟨ho, hn, ⟨stage, hstate, by simpa [hstage] using hiff⟩, hholder, fun id => ?_⟩
      rcases hexact id with hrow | ⟨hnone, hpassed⟩
      · exact hrow
      · refine rowExact_absent hnone (Option.eq_none_iff_forall_ne_some.mpr fun e he => ?_)
        rw [Table.passed_of_nextAfter_none hnext (Table.mem_keys_of_get he)] at hpassed
        cases hpassed
    · next id hnext =>
      have hheld : HeldBy env r := by
        intro record' hrecord'
        rw [hstate] at hrecord'
        cases hrecord'
        exact hholder
      refine (refreshRetentionIndexTx_spec hk hids ho hn hheld id).bind fun r' hr' => ?_
      refine ⟨hr'.owned, hr'.named, ⟨stage, by rw [hr'.state, hstate], by simpa [hstage] using hiff⟩,
        hholder, fun id' => ?_⟩
      by_cases hid : id' = id
      · subst hid
        refine .inl (hr'.exact ⟨record.generation, stage⟩ hstate fun hc => ?_)
        rw [hiff.mp hc] at hstage
        cases hstage
      · rcases hexact id' with hrow | ⟨hnone, hpassed⟩
        · exact .inl (hrow.congr ⟨rfl, rfl, rfl⟩ (hr'.other id' hid))
        · -- an event that the turn went past is not stored
          cases hev : db.ev.events.get id' with
          | none => exact .inl (rowExact_absent ((hr'.other id' hid).trans hnone) hev)
          | some e =>
            refine .inr ⟨(hr'.other id' hid).trans hnone, ?_⟩
            by_contra hnow
            have hold := (Table.passed_nextAfter hnext (Table.mem_keys_of_get hev)).mp
              (by simpa using hnow)
            rcases hold with hold | hold
            · rw [hold] at hpassed
              cases hpassed
            · exact hid hold
  · exact ⟨ho, hn, ⟨stage, hstate, hiff⟩, hholder, by unfold StageExact; exact hexact⟩

theorem rebuildRetentionLoop_rebuilding (hk : KeyedBy D db.ev) (hids : FullIds D) :
    ∀ (fuel limit : ℕ) (r : RetentionIndex) (record : IndexRecord), Rebuilding env db r record →
      Ensures (rebuildRetentionLoop env db fuel limit r record) (fun x => Rebuilding env db x.1 x.2)
        (fun _ => False)
  | 0, _, _, _, h => h
  | _ + 1, 0, _, _, h => h
  | fuel + 1, limit + 1, r, record, h => by
    unfold rebuildRetentionLoop
    refine (rebuildRetentionStep_rebuilding hk hids h).bind fun x hx => ?_
    split
    · exact hx
    · exact rebuildRetentionLoop_rebuilding hk hids fuel _ _ _ hx

/-- **Rebuilding** refuses an oversized limit and nothing else. It may be called at any time and with any limit
within the bound. -/
theorem rebuildRetentionIndex_indexed (hk : KeyedBy D db.ev) (hids : FullIds D)
    (h : Indexed env db db.retention) (limit : ℕ) :
    Ensures (rebuildRetentionIndex env db limit) (fun db' => Indexed env db db'.retention)
      (fun e => e = .payloadMaintenanceLimit) := by
  simp only [rebuildRetentionIndex]
  split
  · rfl
  split
  · exact h
  · next record hrecord =>
    have hstart : Rebuilding env db db.retention record :=
      ⟨h.owned, h.named, ⟨record.stage, hrecord, Iff.rfl⟩, h.held record hrecord,
        h.stage record hrecord⟩
    refine ((rebuildRetentionLoop_rebuilding hk hids _ limit _ _ hstart).mono (fun _ h => h)
      fun _ h => h.elim).bind fun x hx => ?_
    exact hx.indexed

/-! ## 7. Promoting

A due row moves from the grace table to the two orders. The row of its event changes in its mark only, so that the
promise of section 4 is kept for every event at once. -/

/-- Promotion changes no row but for its mark. -/
structure Promoted (r r' : RetentionIndex) : Prop where
  owned : IndexOwned r'
  named : KeysNamed r'
  state : r'.state = r.state
  rows : ∀ id, rowOf r' id = rowOf r id

omit [Primitives] in
theorem promoteRetentionLoop_promoted (now : Timestamp) :
    ∀ (limit : ℕ) (r : RetentionIndex), IndexOwned r → KeysNamed r →
      Ensures (promoteRetentionLoop now limit r) (Promoted r) (fun _ => False)
  | 0, _, ho, hn => ⟨ho, hn, rfl, fun _ => rfl⟩
  | limit + 1, r, ho, hn => by
    unfold promoteRetentionLoop
    split
    · exact ⟨ho, hn, rfl, fun _ => rfl⟩
    next due hdue =>
    dsimp only
    split
    · exact ⟨ho, hn, rfl, fun _ => rfl⟩
    obtain ⟨entry, hget, hp, hdeadline, howned⟩ := ho.promote hn (Table.least_mem hdue)
    rw [hget]
    dsimp only
    rw [if_neg (by simp [hp, hdeadline])]
    have hnamed : KeysNamed { r with
        grace := r.grace.erase due
        global := r.global.insert entry.key (ofLex due).2
        author := r.author.insert (entry.author, entry.key) (ofLex due).2
        reverse := r.reverse.insert (ofLex due).2 { entry with promoted := true } } := by
      intro id entry' hrow
      rw [Table.get_insert] at hrow
      split at hrow
      · next hid =>
        cases hrow
        rw [hid]
        exact hn _ entry hget
      · exact hn id entry' hrow
    refine (promoteRetentionLoop_promoted now limit _ howned hnamed).mono (fun r' hr' => ?_)
      fun _ h => h
    refine ⟨hr'.owned, hr'.named, hr'.state, fun id => ?_⟩
    rw [hr'.rows id, rowOf, rowOf, Table.get_insert]
    split
    · next hid =>
      rw [hid, hget]
      rfl
    · rfl

theorem StageExact.of_rows {r' : RetentionIndex} {record : IndexRecord}
    (h : StageExact env db r record) (hrows : ∀ id, rowOf r' id = rowOf r id) :
    StageExact env db r' record := by
  have hexact : ∀ id, RowExact env record.generation.policy db r id →
      RowExact env record.generation.policy db r' id := by
    intro id hrow x
    rw [hrows id]
    exact hrow x
  unfold StageExact at h ⊢
  split
  · trivial
  · next cursor hstage =>
    rw [hstage] at h
    intro id
    rcases h id with hrow | ⟨hnone, hpassed⟩
    · exact .inl (hexact id hrow)
    · refine .inr ⟨?_, hpassed⟩
      have hrow := hrows id
      rw [rowOf, rowOf, hnone] at hrow
      simpa using hrow
  · next hstage =>
    rw [hstage] at h
    exact fun id => hexact id (h id)

theorem Promoted.indexed {r' : RetentionIndex} (h : Promoted r r') (hi : Indexed env db r) :
    Indexed env db r' := by
  refine ⟨h.owned, h.named, fun record hrecord => hi.held record (h.state ▸ hrecord),
    fun hnone id => ?_, fun record hrecord => ?_⟩
  · have hrow := h.rows id
    rw [rowOf, rowOf, hi.unset (h.state ▸ hnone) id] at hrow
    simpa using hrow
  · exact (hi.stage record (h.state ▸ hrecord)).of_rows h.rows

theorem promoteRetentionGrace_indexed (h : Indexed env db db.retention) (clock : RetentionClock)
    (limit : ℕ) :
    Ensures (promoteRetentionGrace db clock limit) (fun db' => Indexed env db db'.retention)
      (fun e => e = .payloadMaintenanceLimit) := by
  simp only [promoteRetentionGrace]
  split
  · rfl
  split
  · split
    · refine ((promoteRetentionLoop_promoted _ limit _ h.owned h.named).mono (fun _ h => h)
        fun _ h => h.elim).bind fun r' hr' => ?_
      exact hr'.indexed h
    · exact h
  · exact h

/-- **Configuring** a different generation starts with clearing the old one, and at that stage nothing is promised
of the rows. -/
theorem configureRetentionIndexTx_indexed (h : Indexed env db r) (policy : RetentionPolicy) :
    Indexed env db (configureRetentionIndexTx r ⟨policy, env.selfId⟩) := by
  have hclear : Indexed env db { r with state := some ⟨⟨policy, env.selfId⟩, .clearing⟩ } := by
    refine ⟨⟨h.owned.grace, h.owned.global, h.owned.author⟩, h.named, fun record hrecord => ?_,
      fun hnone => ?_, fun record hrecord => ?_⟩
    · cases hrecord
      rfl
    · cases hnone
    · cases hrecord
      trivial
  unfold configureRetentionIndexTx
  split
  · split
    · exact h
    · exact hclear
  · exact hclear

/-! ## 8. Whole runs

Every piece of a transaction keeps the index, and none of them fails with an error of the index: that is why the
two go together through the same induction. -/

/-- **Every piece keeps the index.** A bracket refreshes what its reducer may have changed; maintenance changes
nothing that an entry depends on, or is maintenance of the index. -/
theorem Piece.keepsIndex (h : Piece env D Q db db') (hids : FullIds D) (hg : Grounded D db.ev)
    (hi : Indexed env db db.retention) : Indexed env db' db'.retention := by
  have haside : Aside db db' → db'.retention = db.retention → Indexed env db' db'.retention := by
    intro ha heq
    rw [heq]
    exact hi.congr ha.sameEntry
  cases h with
  | @bracket v before db₁ db₂ t hbefore hred hafter hq =>
    have hindexed := (hred.indexedAfter hg hids hi hbefore).of_ok hafter
    exact hindexed.congr (payloadAfterTx_eq hafter hq).1.sameEntry
  | collected h =>
    refine haside (collectQuotaPayloadStepTx_aside h) ?_
    obtain ⟨a, heq | ⟨k, -, heq⟩⟩ := (collectQuotaPayloadStepTx_effect db _ _).of_ok h
    · rw [heq]
    · rw [heq]
  | accounted h =>
    have heq := (rebuildPayloadAccounting_eq env db _).of_ok h
    exact haside (.of_accounting heq) (by rw [heq])
  | nominated h =>
    have heq := (rebuildQuotaPayloadNominations_eq env db _).of_ok h
    exact haside (.of_accounting heq) (by rw [heq])
  | configured policy =>
    exact (configureRetentionIndexTx_indexed hi policy).congr fun id => ⟨rfl, rfl, rfl⟩
  | indexed h =>
    have heq := (rebuildRetentionIndex_eq env db _).of_ok h
    exact ((rebuildRetentionIndex_indexed hg.keyed hids hi _).of_ok h).congr
      (Aside.of_retention heq).sameEntry
  | promoted h =>
    have heq := (promoteRetentionGrace_eq db _ _).of_ok h
    exact ((promoteRetentionGrace_indexed hi _ _).of_ok h).congr (Aside.of_retention heq).sameEntry
  | scheduled h => exact hi.congr h.sameEntry
  | ranked postId now => exact hi.congr fun id => ⟨rfl, rfl, rfl⟩

omit [Primitives] in
theorem IsAccountingError.not_index {e : DbError} (h : IsAccountingError e) : ¬IsIndexError e := by
  rintro rfl
  exact h

/-- **No piece fails with an error of the index.** -/
theorem Blame.not_index {e : DbError} (h : Blame env D Q db e) (hids : FullIds D)
    (hg : Grounded D db.ev) (hi : Indexed env db db.retention) : ¬IsIndexError e := by
  cases h with
  | before hv h => exact ((payloadBeforeTx_counting env db.ev _).of_error h).not_index
  | after hbefore hred h => exact ((hred.indexedAfter hg hids hi hbefore).of_error h).not_index
  | collected h =>
    rcases (collectQuotaPayloadStepTx_raises db _ _).of_error h with he | rfl
    · exact he.not_index
    · simp [IsIndexError]
  | accounted h =>
    rcases (rebuildPayloadAccounting_raises env db _).of_error h with he | rfl
    · exact he.not_index
    · simp [IsIndexError]
  | nominated h =>
    rcases (rebuildQuotaPayloadNominations_raises env db _).of_error h with rfl | rfl
    · simp [IsIndexError]
    · simp [IsIndexError]
  | indexed h =>
    rw [(rebuildRetentionIndex_indexed hg.keyed hids hi _).of_error h]
    simp [IsIndexError]
  | promoted h =>
    rw [(promoteRetentionGrace_indexed hi _ _).of_error h]
    simp [IsIndexError]
  | other h => exact fun he => h (.inr he)

variable (env) in
theorem reached_indexed (hcf : CollisionFree D) (hids : FullIds D) (ops : List Op)
    (hD : DeliveredFrom D ops) :
    Grounded D (reached env ops).ev ∧ Indexed env (reached env ops) (reached env ops).retention := by
  have hrun := run_pieces (Q := Set.univ) (J := fun db => Indexed env db db.retention) env
    (anything_keeps D) hcf (fun db db' hI _ hp hi => hp.keepsIndex hids hI.1 hi) ops hD
    (requestedFrom_univ ops) ⟨grounded_empty D, trivial⟩ (indexed_empty env)
  exact ⟨hrun.1.1, hrun.2⟩

/-- **The retention index is what it stands for.**  In every reachable state, whatever was
interleaved: each row of `reverse` owns its grace row or its two ordered rows, and there are no other
rows; a ready index has exactly the rows of the eligible events, under the key of the configured
policy; and no operation fails with an error of the index. -/
theorem retentionIndex_exact (env : Env) {D : Set VerifiedEvent} (hcf : CollisionFree D)
    (hids : FullIds D) (ops : List Op) (hD : DeliveredFrom D ops) :
    IndexOwned (reached env ops).retention ∧
      (∀ generation, (reached env ops).retention.state = some ⟨generation, .ready⟩ →
        ∀ id x, rowOf (reached env ops).retention id = some x ↔ ∃ e origins first,
          Eligible env generation.policy (reached env ops) id e origins first ∧
            x = entryFor env generation.policy e origins first) ∧
      ∀ o : Op, (∀ v ∈ o.delivered, v ∈ D) →
        step env (reached env ops) o ≠ .error (.payloadAccountingInvariant .retention) := by
  obtain ⟨hg, hi⟩ := reached_indexed env hcf hids ops hD
  refine ⟨hi.owned, fun generation hready id => hi.stage _ hready id, fun o ho herr => ?_⟩
  obtain ⟨db', hI', hi', hblame⟩ := step_blame (Q := Set.univ)
    (J := fun db => Indexed env db db.retention) (anything_keeps D) hcf
    (fun db db' hI _ hp hi => hp.keepsIndex hids hI.1 hi) ⟨hg, trivial⟩ hi ho
    (fun _ _ => Set.mem_univ _) herr
  exact hblame.not_index hids hI'.1 hi' rfl

end Entry

section Sample

attribute [local instance] Primitives.reference

/-- A post is materialized at `now`, indexed, and promoted if it is due at time 20. -/
def sampleIndexing (now : Timestamp) : List Op :=
  [.ingest [.payload samplePayload now {}], .configureRetention samplePolicy, .rebuildRetention 100,
    .promoteRetention (.trusted 20) 100]

theorem sampleIndexing_fullIds (now : Timestamp) : FullIds (envelopesOf (sampleIndexing now)) := by
  intro v hv
  obtain rfl : v = samplePayload.event := by
    simpa [envelopesOf, sampleIndexing, Op.delivered, Delivery.event] using hv
  decide

/-- The promoted post has its rows in both orders. -/
theorem retentionIndex_exact_sampleIndexing :
    let db := reached sampleEnv (sampleIndexing 5)
    let row := entryFor sampleEnv samplePolicy samplePost ⟨1, some 5⟩ 5
    FullIds (envelopesOf (sampleIndexing 5)) ∧
      db.retention.state = some ⟨⟨samplePolicy, sampleEnv.selfId⟩, .ready⟩ ∧
      db.retention.reverse.get 1 = some { row with promoted := true } ∧
      db.retention.global.get row.key = some 1 ∧ IndexOwned db.retention ∧
      (∃ e origins first, Eligible sampleEnv samplePolicy db 1 e origins first ∧
        row = entryFor sampleEnv samplePolicy e origins first) ∧
      step sampleEnv db (.rebuildRetention 1) ≠ .error (.payloadAccountingInvariant .retention) := by
  have hstate : (reached sampleEnv (sampleIndexing 5)).retention.state =
      some ⟨⟨samplePolicy, sampleEnv.selfId⟩, .ready⟩ := by decide +kernel
  have hrow : (reached sampleEnv (sampleIndexing 5)).retention.reverse.get 1 =
      some { entryFor sampleEnv samplePolicy samplePost ⟨1, some 5⟩ 5 with promoted := true } := by
    decide +kernel
  obtain ⟨howned, hexact, herr⟩ := retentionIndex_exact sampleEnv
    (collisionFree_envelopesOf (by decide)) (sampleIndexing_fullIds 5) (sampleIndexing 5)
    (deliveredFrom_envelopesOf (sampleIndexing 5))
  refine ⟨sampleIndexing_fullIds 5, hstate, hrow, by decide +kernel, howned,
    (hexact _ hstate 1 _).mp ?_, herr _ fun v hv => by simp [Op.delivered] at hv⟩
  rw [rowOf, hrow]
  rfl

/-- A post that is materialized nine seconds before the last timestamp is processed, nonempty, remote,
and has its origins, but its deadline is no timestamp: a ready index has no row for it. -/
theorem retentionIndex_lateDeadline :
    let db := reached sampleEnv (sampleIndexing (u64Max - 9))
    db.retention.state = some ⟨⟨samplePolicy, sampleEnv.selfId⟩, .ready⟩ ∧
      db.ev.events.get 1 = some samplePost ∧ contentClass db.ev 1 = .current ∧
      samplePost.author ≠ sampleEnv.selfId ∧ samplePost.kind = EventKind.SOCIAL_POST ∧
      0 < samplePost.contentLen ∧ db.origins.get 1 = some ⟨1, some (u64Max - 9)⟩ ∧
      db.retention.reverse.get 1 = none := by
  decide +kernel

end Sample

end Rostra.Db
