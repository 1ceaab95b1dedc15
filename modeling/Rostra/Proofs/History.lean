/-
# States against what was delivered

Some properties are not about a state alone but about a state and the deliveries that led to it: the
SET of envelopes and the SET of payloads, whatever their order, repetition and grouping into
transactions.  `Chronicle` lists what such a property has to be shown to keep, one envelope and one
payload at a time, and `reached_chronicle` concludes for whole runs of ingestion transactions.

What counts as delivered is what a COMMITTED transaction delivered.

A delivery may be repeated, and a transaction may be refused as a whole; both are settled here. What a chronicle is
about is a set, so that repetitions vanish, and the set grows by what a committed transaction has delivered, so
that refused ones do not count. Whether any are refused is another question (`Proofs/Commits`).
-/
import Rostra.Proofs.Effects

namespace Rostra.Db

open Rostra Outcome

variable [Primitives]

/-! ## 1. What has been delivered

A transaction carries several deliveries and commits all of them or none. -/

/-- The payload a delivery carries. -/
def Delivery.payload? : Delivery → Option VerifiedEventContent
  | .envelope .. => none
  | .payload c _ _ => some c

def envelopesIn (ds : List Delivery) : Set VerifiedEvent := {v | ∃ d ∈ ds, d.event = v}

def payloadsIn (ds : List Delivery) : Set VerifiedEventContent := {c | ∃ d ∈ ds, d.payload? = some c}

theorem envelopesIn_append_single (ds : List Delivery) (d : Delivery) :
    envelopesIn (ds ++ [d]) = insert d.event (envelopesIn ds) := by
  ext v
  simp only [envelopesIn, List.mem_append, List.mem_singleton, Set.mem_insert_iff,
    Set.mem_ofPred_eq]
  constructor
  · rintro ⟨d', hd' | rfl, rfl⟩
    · exact .inr ⟨d', hd', rfl⟩
    · exact .inl rfl
  · rintro (rfl | ⟨d', hd', rfl⟩)
    · exact ⟨d, .inr rfl, rfl⟩
    · exact ⟨d', .inl hd', rfl⟩

theorem mem_payloadsIn_append {ds : List Delivery} {d : Delivery} {c : VerifiedEventContent} :
    c ∈ payloadsIn (ds ++ [d]) ↔ c ∈ payloadsIn ds ∨ d.payload? = some c := by
  simp only [payloadsIn, List.mem_append, List.mem_singleton, Set.mem_ofPred_eq]
  constructor
  · rintro ⟨d', hd' | rfl, h⟩
    · exact .inl ⟨d', hd', h⟩
    · exact .inr h
  · rintro (⟨d', hd', h⟩ | h)
    · exact ⟨d', .inl hd', h⟩
    · exact ⟨d, .inr rfl, h⟩

theorem payloadsIn_append_envelope (ds : List Delivery) (v : VerifiedEvent) (now : Timestamp)
    (source : EventReceivedSource) :
    payloadsIn (ds ++ [.envelope v now source]) = payloadsIn ds := by
  ext c
  simp [mem_payloadsIn_append, Delivery.payload?]

theorem payloadsIn_append_payload (ds : List Delivery) (c : VerifiedEventContent) (now : Timestamp)
    (ledger : AdmissionState) :
    payloadsIn (ds ++ [.payload c now ledger]) = insert c (payloadsIn ds) := by
  ext c'
  simp [mem_payloadsIn_append, Delivery.payload?, or_comm, eq_comm]

/-- The deliveries of an ingestion transaction. -/
def Op.deliveries : Op → List Delivery
  | .ingest ds => ds
  | _ => []

/-- What the committed transactions of a run delivered. -/
def committedDeliveries (env : Env) (txs : List (List Delivery)) : List Delivery :=
  (committed (step env) {} (txs.map Op.ingest)).flatMap Op.deliveries

/-- Where no transaction aborts, everything was delivered. -/
theorem committedDeliveries_eq_flatten {env : Env} {txs : List (List Delivery)}
    (h : (committed (step env) {} (txs.map Op.ingest)).length = txs.length) :
    committedDeliveries env txs = txs.flatten := by
  have hall : committed (step env) {} (txs.map Op.ingest) = txs.map Op.ingest :=
    (committed_sublist _ _).eq_of_length (by rw [h, List.length_map])
  rw [committedDeliveries, hall, List.flatMap_map, List.flatten_eq_flatMap]
  rfl

/-! ## 2. The rule

The induction goes over deliveries, not over transactions, so that their grouping drops out. -/

/-- What it takes for a property `T` of the database after envelopes `S` and payloads `P` to be kept,
between states with the event invariant `I`. -/
structure Chronicle (env : Env) (D : Set VerifiedEvent) (I : EventTables → Prop)
    (T : Set VerifiedEvent → Set VerifiedEventContent → Database → Prop) : Prop where
  empty : T ∅ ∅ {}
  envelope : ∀ S P db v db', insert v S ⊆ D → OnGround D I db.ev → OnGround D I db'.ev →
    EnvelopeEffect db v db' → T S P db → T (insert v S) P db'
  payload : ∀ S P db (c : VerifiedEventContent) now db', S ⊆ D → c.event ∈ S →
    OnGround D I db.ev → db.ev.events.get c.event.id = some c.event.event →
    PayloadEffect env {} db c now db' → T S P db → T S (insert c P) db'
  booked : ∀ S P db db', Booked db db' → T S P db → T S P db'

section Rule

variable {env : Env} {D : Set VerifiedEvent} {I : EventTables → Prop}
  {M : VerifiedEvent → EventTables → Prop} {E : DbError → Prop}
  {T : Set VerifiedEvent → Set VerifiedEventContent → Database → Prop}

/-- The database after a list of deliveries, with its ground. -/
def Chronicled (D : Set VerifiedEvent) (I : EventTables → Prop)
    (T : Set VerifiedEvent → Set VerifiedEventContent → Database → Prop) (ds : List Delivery)
    (db : Database) : Prop :=
  OnGround D I db.ev ∧ envelopesIn ds ⊆ D ∧ T (envelopesIn ds) (payloadsIn ds) db

/-- **One delivery** adds its envelope and its payload to what was delivered. -/
theorem deliver_chronicled (hk : Keeps D Anything AnythingMid I M E) (hcf : CollisionFree D)
    (hT : Chronicle env D I T) {db : Database} {ds : List Delivery} (h : Chronicled D I T ds db)
    (d : Delivery) (hd : d.event ∈ D) :
    Ensures (deliver env db d) (Chronicled D I T (ds ++ [d])) (fun _ => True) := by
  obtain ⟨hI, hsub, ht⟩ := h
  have hsub' : insert d.event (envelopesIn ds) ⊆ D := Set.insert_subset hd hsub
  have henv : ∀ v now source, v = d.event →
      Ensures (processEventTx env {} db v now source)
        (fun r => OnGround D I r.1.ev ∧ r.1.ev.events.get v.id = some v.event ∧
          T (insert v (envelopesIn ds)) (payloadsIn ds) r.1) (fun _ => True) := by
    rintro v now source rfl
    refine ((processEventTx_keeps hk hcf hI hd now source).and
      (processEventTx_effect env {} db _ now source)).mono (fun r hr => ?_) fun _ _ => trivial
    exact ⟨hr.1, hr.2.stored hI.1.keyed hcf hd, hT.envelope _ _ _ _ _ hsub' hI hr.1 hr.2 ht⟩
  unfold Chronicled
  rw [envelopesIn_append_single]
  cases d with
  | envelope v now source =>
    refine (henv v now source rfl).bind fun r ⟨hI', _, ht'⟩ => ?_
    rw [payloadsIn_append_envelope]
    exact ⟨hI', hsub', ht'⟩
  | payload c now ledger =>
    refine (henv c.event now _ rfl).bind fun r ⟨hI', hst, ht'⟩ => ?_
    have hsame : ∀ e, r.1.ev.events.get c.event.id = some e → e = c.event.event :=
      fun e he => (Option.some.inj (hst.symm.trans he)).symm
    refine ((processEventContentTx_keeps hk hI' hsame now ledger none).and
      (processEventContentTx_effect hI'.1 hst now ledger none)).mono (fun db' hdb' => ?_)
      fun _ _ => trivial
    obtain ⟨hI'', db₁, heff, hbook⟩ := hdb'
    rw [payloadsIn_append_payload]
    exact ⟨hI'', hsub', hT.booked _ _ _ _ hbook
      (hT.payload _ _ _ _ _ _ hsub' (Set.mem_insert _ _) hI' hst heff ht')⟩

theorem chronicled_empty (hI : I {}) (hT : Chronicle env D I T) : Chronicled D I T [] {} := by
  have henv : envelopesIn [] = ∅ := by simp [envelopesIn]
  have hpay : payloadsIn [] = ∅ := by simp [payloadsIn]
  refine ⟨⟨grounded_empty D, hI⟩, ?_, ?_⟩
  · rw [henv]
    exact Set.empty_subset D
  · rw [henv, hpay]
    exact hT.empty

/-- **A run** is described by its committed deliveries, however they were grouped. -/
theorem reached_chronicled (hk : Keeps D Anything AnythingMid I M E) (hcf : CollisionFree D)
    (hI : I {}) (hT : Chronicle env D I T) (txs : List (List Delivery))
    (hD : DeliveredFrom D (txs.map Op.ingest)) :
    Chronicled D I T (committedDeliveries env txs) (reached env (txs.map Op.ingest)) := by
  have hrun := run_history (f := step env)
    (J := fun ops db => Chronicled D I T (ops.flatMap Op.deliveries) db) (txs.map Op.ingest) [] {}
    (fun o ho done db db' hdb hok => ?_) (chronicled_empty hI hT)
  · exact hrun
  · obtain ⟨ds, hds, rfl⟩ := List.mem_map.mp ho
    rw [List.flatMap_append, List.flatMap_singleton]
    refine (Ensures.foldlM_history (f := deliver env) (E := fun _ => True) ds _ db
      (fun d hd done' db'' hdb'' => ?_) hdb).of_ok hok
    exact deliver_chronicled hk hcf hT hdb'' d (hD _ ho _ (List.mem_map_of_mem hd))

end Rule

end Rostra.Db
