/-
# First facts about the event operations

What the small functions of `EventOps` can raise and what they leave alone.  Every later file uses them through these
statements.

An error of an event operation is one of four kinds: a refused identity, a lost attribution, a reference-count error
and a usage error.  The lemmas say which function can raise which, so that a proof about one kind can dismiss the other
calls in a line.

The second half fixes how the rest of the development speaks about content.  The state of a payload is an optional row,
where no row means that it was processed; `classOf` reads it as one of five classes, which are also the buckets of the
usage counters.  That a class is `referenced` is exactly when its event counts in the reference count of its hash
(`rcAlreadyDecremented_eq`), and the tracking functions move a payload from the bucket of its old class to that of its new one
(`trackPayloadDeletionTx_eq`, `trackPayloadPruningTx_eq`).
-/
import Rostra.Db.Run

namespace Rostra.Db

open Rostra Outcome

/-! ## 1. Which function raises which error

The descriptions are total: a value that satisfies the second argument of `Ensures`, or an error that satisfies the
third. -/

def IsCollision (e : DbError) : Prop := ∃ s i j, e = .identityPrefixCollision s i j

def IsLostAttribution (e : DbError) : Prop := ∃ d, e = .missingDeletionAttribution d

/-- An invariant error or an overflow in either direction of the reference counts. -/
def IsRcError (e : DbError) : Prop :=
  e = .payloadAccountingInvariant .contentRc ∨ ∃ d, e = .overflow .contentRc d

/-- An invariant error or an overflow in either direction of the usage counters. -/
def IsUsageError (e : DbError) : Prop :=
  e = .payloadAccountingInvariant .dataUsage ∨ ∃ d, e = .overflow .dataUsage d

theorem checkedAdd_ensures (c : Counter) (a b : ℕ) :
    Ensures (checkedAdd c a b) (fun n => n = a + b)
      (fun e => u64Max < a + b ∧ e = .overflow c .add) := by
  unfold checkedAdd
  split
  · exact rfl
  · next h => exact ⟨by omega, rfl⟩

theorem checkedSub_ensures (c : Counter) (a b : ℕ) :
    Ensures (checkedSub c a b) (fun n => b ≤ a ∧ n = a - b)
      (fun e => a < b ∧ e = .overflow c .sub) := by
  unfold checkedSub
  split
  · next h => exact ⟨h, rfl⟩
  · next h => exact ⟨by omega, rfl⟩

theorem register_ensures (t : Table ShortRostraId RestRostraId) (id : RostraId) :
    Ensures (register t id)
      (fun t' => t'.get id.split.1 = some id.split.2 ∧
        ∀ k, k ≠ id.split.1 → t'.get k = t.get k) IsCollision := by
  unfold register
  split
  · next existing hex =>
    split
    · exact ⟨_, _, _, rfl⟩
    · next h =>
      simp only [ne_eq, not_not] at h
      exact ⟨by rw [hex, h], fun _ _ => rfl⟩
  · exact ⟨Table.get_insert_self .., fun k hk => Table.get_insert_of_ne _ _ hk⟩

theorem PayloadTotal.add_ensures (x : PayloadTotal) (len : ℕ) :
    Ensures (x.add len) (fun y => y = ⟨x.size + len, x.num + 1⟩)
      (fun e => (u64Max < x.size + len ∨ u64Max < x.num + 1) ∧ e = .overflow .dataUsage .add) := by
  refine ((checkedAdd_ensures ..).mono (fun _ h => h) fun e he => ⟨.inl he.1, he.2⟩).bind
    fun size hsize => ?_
  refine ((checkedAdd_ensures ..).mono (fun _ h => h) fun e he => ⟨.inr he.1, he.2⟩).bind
    fun num hnum => ?_
  simp [hsize, hnum]

theorem PayloadTotal.sub_ensures {x : PayloadTotal} {len : ℕ} :
    Ensures (x.sub len)
      (fun y => len ≤ x.size ∧ 1 ≤ x.num ∧ y = ⟨x.size - len, x.num - 1⟩)
      (fun e => (x.size < len ∨ x.num < 1) ∧ e = .overflow .dataUsage .sub) := by
  unfold PayloadTotal.sub checkedSub
  by_cases hs : len ≤ x.size
  · by_cases hn : 1 ≤ x.num
    · simp only [if_pos hs, if_pos hn]
      exact ⟨hs, hn, rfl⟩
    · simp only [if_pos hs, if_neg hn]
      exact ⟨.inr (by omega), rfl⟩
  · simp only [if_neg hs]
    exact ⟨.inl (by omega), rfl⟩

theorem decrementContentRcTx_error (h : ContentHash) (rc : Table ContentHash ℕ) :
    Ensures (decrementContentRcTx h rc) (fun _ => True) IsRcError := by
  unfold decrementContentRcTx
  split
  · exact .inl rfl
  · refine ((checkedSub_ensures ..).mono (fun _ h => h) fun e he => ?_).bind fun _ _ => trivial
    exact .inr ⟨_, he.2⟩

theorem incrementContentRcTx_error (h : ContentHash) (rc : Table ContentHash ℕ) :
    Ensures (incrementContentRcTx h rc) (fun _ => True) IsRcError := by
  unfold incrementContentRcTx
  split
  · exact .inl rfl
  · refine ((checkedAdd_ensures ..).mono (fun _ h => h) fun e he => ?_).bind fun _ _ => trivial
    exact .inr ⟨_, he.2⟩

theorem recordPayloadTx_error (dst : PayloadBucket) (a : RostraId) (len : ℕ) (t : UsageTable) :
    Ensures (recordPayloadTx dst a len t) (fun _ => True) IsUsageError := by
  have hadd : ∀ x : PayloadTotal, Ensures (x.add len) (fun _ => True) IsUsageError := fun x =>
    (x.add_ensures len).mono (fun _ _ => trivial) fun e he => .inr ⟨_, he.2⟩
  exact (hadd _).bind fun _ _ => (hadd _).bind fun _ _ => trivial

theorem movePayloadTx_error (src dst : PayloadBucket) (a : RostraId) (len : ℕ) (t : UsageTable) :
    Ensures (movePayloadTx src dst a len t) (fun _ => True) IsUsageError := by
  have hsub : ∀ x : PayloadTotal, Ensures (x.sub len) (fun _ => True) IsUsageError := fun x =>
    PayloadTotal.sub_ensures.mono (fun _ _ => trivial) fun e he => .inr ⟨_, he.2⟩
  have hadd : ∀ x : PayloadTotal, Ensures (x.add len) (fun _ => True) IsUsageError := fun x =>
    (x.add_ensures len).mono (fun _ _ => trivial) fun e he => .inr ⟨_, he.2⟩
  exact (hsub _).bind fun _ _ => (hadd _).bind fun _ _ => trivial

theorem trackNewEventTx_error (a : RostraId) (t : UsageTable) :
    Ensures (trackNewEventTx a t) (fun _ => True) IsUsageError := by
  have hadd : ∀ x : PayloadTotal, Ensures (x.add EVENT_METADATA_SIZE) (fun _ => True) IsUsageError :=
    fun x => (x.add_ensures _).mono (fun _ _ => trivial) fun e he => .inr ⟨_, he.2⟩
  exact (hadd _).bind fun _ _ => (hadd _).bind fun _ _ => trivial

theorem trackPayloadDeletionTx_error (a : RostraId) (len : ℕ) (s : Option EventContentState)
    (t : UsageTable) : Ensures (trackPayloadDeletionTx a len s t) (fun _ => True) IsUsageError := by
  unfold trackPayloadDeletionTx
  split
  · exact movePayloadTx_error ..
  · exact movePayloadTx_error ..
  · exact movePayloadTx_error ..
  · exact movePayloadTx_error ..
  · exact .inl rfl

theorem trackPayloadPruningTx_error (a : RostraId) (len : ℕ) (s : Option EventContentState)
    (t : UsageTable) : Ensures (trackPayloadPruningTx a len s t) (fun _ => True) IsUsageError := by
  unfold trackPayloadPruningTx
  split
  · exact movePayloadTx_error ..
  · exact movePayloadTx_error ..
  · exact .inl rfl

theorem releaseContentRcTx_error (s : Option EventContentState) (h : ContentHash)
    (rc : Table ContentHash ℕ) :
    Ensures (releaseContentRcTx s h rc) (fun _ => True) IsRcError := by
  unfold releaseContentRcTx
  split
  · trivial
  · exact decrementContentRcTx_error h rc

theorem trackParentDeletionTx_error (s : Option EventContentState) (parent : Event)
    (t : UsageTable) : Ensures (trackParentDeletionTx s parent t) (fun _ => True) IsUsageError := by
  unfold trackParentDeletionTx
  split
  · trivial
  · exact trackPayloadDeletionTx_error ..

/-! ## 2. The lifecycle classes

`Current` is stored and processed, `Missing` waits for its bytes, and the other three are final: deleted by its
author, pruned here, or found invalid. -/

/-- The five classes of content.  A usage bucket is the class it counts. -/
def classOf : Option EventContentState → PayloadBucket
  | none => .current
  | some (.missing ..) => .missing
  | some (.deleted _) => .deleted
  | some .pruned => .pruned
  | some .invalid => .invalid

theorem classOf_eq_current {s : Option EventContentState} : classOf s = .current ↔ s = none := by
  rcases s with _ | _ | _ | _ | _ <;> simp [classOf]

theorem classOf_eq_missing {s : Option EventContentState} :
    classOf s = .missing ↔ ∃ last count next, s = some (.missing last count next) := by
  rcases s with _ | _ | _ | _ | _ <;> simp [classOf]

theorem classOf_eq_deleted {s : Option EventContentState} :
    classOf s = .deleted ↔ ∃ d, s = some (.deleted d) := by
  rcases s with _ | _ | _ | _ | _ <;> simp [classOf]

/-- The class of the content of a stored event. -/
def contentClass (t : EventTables) (id : ShortEventId) : PayloadBucket :=
  classOf (t.eventsContentState.get id)

theorem canInsertEventContentTx_eq (t : EventTables) (id : ShortEventId) :
    canInsertEventContentTx t id = true ↔ contentClass t id = .missing := by
  unfold canInsertEventContentTx contentClass
  rcases t.eventsContentState.get id with _ | _ | _ | _ | _ <;> simp [classOf]

/-- Processed and missing content hold a reference. -/
def PayloadBucket.referenced : PayloadBucket → Bool
  | .current | .missing => true
  | _ => false

theorem rcAlreadyDecremented_eq (s : Option EventContentState) :
    rcAlreadyDecremented s = !(classOf s).referenced := by
  rcases s with _ | _ | _ | _ | _ <;> rfl

/-- A deletion moves the payload out of the bucket of its class. -/
theorem trackPayloadDeletionTx_eq {a : RostraId} {len : ℕ} {s : Option EventContentState}
    {t : UsageTable} (h : classOf s ≠ .deleted) :
    trackPayloadDeletionTx a len s t = movePayloadTx (classOf s) .deleted a len t := by
  rcases s with _ | _ | _ | _ | _ <;> first | rfl | exact absurd rfl h

/-- So does a pruning, of content that holds a reference. -/
theorem trackPayloadPruningTx_eq {a : RostraId} {len : ℕ} {s : Option EventContentState}
    {t : UsageTable} (h : (classOf s).referenced = true) :
    trackPayloadPruningTx a len s t = movePayloadTx (classOf s) .pruned a len t := by
  rcases s with _ | _ | _ | _ | _ <;> first | rfl | cases h

/-- Content without a reference is not pruned again. -/
theorem pruneEventContentTx_terminal {t : EventTables} {id : ShortEventId} {e : Event}
    (h : (classOf (t.eventsContentState.get id)).referenced = false) :
    pruneEventContentTx t id e = .ok (t, decide (t.eventsContentState.get id = some .pruned)) := by
  unfold pruneEventContentTx
  generalize t.eventsContentState.get id = s at h ⊢
  rcases s with _ | _ | _ | _ | _ <;> first | rfl | cases h

/-- Pruning content that holds a reference. -/
theorem pruneEventContentTx_referenced {t : EventTables} {id : ShortEventId} {e : Event}
    (h : (classOf (t.eventsContentState.get id)).referenced = true) :
    pruneEventContentTx t id e = (do
      let rc ← decrementContentRcTx e.contentHash t.contentRc
      let usage ← movePayloadTx (classOf (t.eventsContentState.get id)) .pruned e.author
        e.contentLen t.idsDataUsage
      pure ({ t with
        contentRc := rc
        idsDataUsage := usage
        eventsContentState := t.eventsContentState.insert id .pruned
        eventsContentMissing :=
          unscheduleTx (t.eventsContentState.get id) id t.eventsContentMissing }, true)) := by
  rw [← trackPayloadPruningTx_eq h]
  unfold pruneEventContentTx
  generalize t.eventsContentState.get id = s at h ⊢
  rcases s with _ | _ | _ | _ | _ <;> first | rfl | cases h

/-! ## 3. Parents

A parent counts only if it is of the same author; for the graph, an event of somebody else under the same id is as
good as absent. -/

theorem ownParent?_eq_some {t : EventTables} {a : RostraId} {p : ShortEventId} {e : Event} :
    ownParent? t a p = some e ↔ t.events.get p = some e ∧ e.author = a := by
  simp [ownParent?, Option.filter_eq_some_iff]

theorem ownParent?_eq_none {t : EventTables} {a : RostraId} {p : ShortEventId} :
    ownParent? t a p = none ↔ ¬∃ e, t.events.get p = some e ∧ e.author = a := by
  constructor
  · rintro h ⟨e, he⟩
    rw [ownParent?_eq_some.mpr he] at h
    cases h
  · intro h
    cases ho : ownParent? t a p with
    | none => rfl
    | some e => exact absurd ⟨e, ownParent?_eq_some.mp ho⟩ h

/-! ## 4. Runs

The hypotheses of the results about runs are about the set of envelopes that a run brings in: no two of them share
an id (`CollisionFree`), for example. For a list of operations that set is finite, so on a concrete run each
hypothesis is decided. -/

section Run

variable [Primitives]

/-- Everything a list of operations brings in. -/
def envelopesOf (ops : List Op) : Set VerifiedEvent := {v | v ∈ ops.flatMap Op.delivered}

theorem deliveredFrom_envelopesOf (ops : List Op) : DeliveredFrom (envelopesOf ops) ops :=
  fun o ho _ hv => List.mem_flatMap.mpr ⟨o, ho, hv⟩

/-- On a concrete run, collision freedom is a finite check. -/
theorem collisionFree_envelopesOf {ops : List Op}
    (h : ∀ v ∈ ops.flatMap Op.delivered, ∀ w ∈ ops.flatMap Op.delivered, v.id = w.id → v = w) :
    CollisionFree (envelopesOf ops) :=
  fun v hv w hw => h v hv w hw

/-- A transaction of one delivery. -/
theorem step_ingest_single (env : Env) (db : Database) (d : Delivery) :
    step env db (.ingest [d]) = deliver env db d := by
  simp [step, List.foldlM_cons]

end Run

/-! ## 5. A small run

A post with its payload, an event whose payload never comes, and a deletion of the post. -/

section Sample

attribute [local instance] Primitives.reference

def sampleEnv : Env := ⟨toLex (9, 9), 0⟩

def samplePost : Event :=
  { kind := EventKind.SOCIAL_POST, contentLen := 2, timestamp := 1, author := toLex (1, 1)
    contentHash := blake3 [0, 65] }

def samplePayload : VerifiedEventContent := ⟨⟨.ofEvent samplePost, some [0, 65]⟩, by decide⟩

def sampleWaiting : Event :=
  { kind := EventKind.SOCIAL_POST, contentLen := 2, timestamp := 2, author := toLex (2, 2)
    contentHash := blake3 [0, 66] }

def sampleDeletion : Event :=
  { kind := EventKind.SOCIAL_POST, flags := 1, contentLen := 0, timestamp := 3
    author := toLex (1, 1), parentAux := some 1, contentHash := blake3 [] }

def sampleRun : List Op :=
  [.ingest [.payload samplePayload 5 {}], .ingest [.envelope (.ofEvent sampleWaiting) 6 .local],
    .ingest [.envelope (.ofEvent sampleDeletion) 7 .local], .peekMissing]

theorem two_le_maintenanceMax : 2 ≤ PAYLOAD_MAINTENANCE_MAX := by decide

theorem eight_le_maintenanceMax : 8 ≤ PAYLOAD_MAINTENANCE_MAX := by decide

def samplePolicy : RetentionPolicy where
  sizeFloor := 1
  tauSeconds := 1
  alphaQ16 := 0
  betaQ16 := 0
  maxBonus := 1
  graceSeconds := 10
  sizeFloorPos := by decide
  tauSecondsPos := by decide
  maxBonusPos := by decide

theorem sampleRun_collisionFree : CollisionFree (envelopesOf sampleRun) :=
  collisionFree_envelopesOf (by decide)

end Sample

end Rostra.Db
