/-
# The garbage collector

Bytes go when three independent pieces of bookkeeping agree: the hash is queued, the accounting has
no reference for it, and no protected header was ever counted for it.  None of them is read off the
events when the collector runs, so both directions need an invariant over the whole run.

* **Safety** (`collector_spares_wanted`): what is removed belongs to a quota decision and to nobody
  else.  Every row in the queue is backed by a decision, and a counted header has left its guard.
* **No lost nomination** (`nominations_complete`): a released hash that nobody wants is in the queue,
  once its decision was made or visited by the recovery.  A guard is set by a protected header only,
  and whatever releases the last reference of an owned hash has that hash in its snapshot.

Both are shown for runs that start from any reached database whose bookkeeping was thrown away
(`withoutBooks`), since that is what the recovery is for.
-/
import Rostra.Proofs.Decisions
import Rostra.Proofs.Store

namespace Rostra.Db

open Rostra Outcome

/-! ## 1. What a bracket does to the queue

The hook behind a reducer puts a hash of its snapshot into the queue if it is owned by a decision and has no
reference left. Nothing else in a bracket touches the queue, except a release, which adds its own hash. -/

/-- A database whose accounting and quota provenance start over. -/
def withoutBooks (db : Database) : Database := { db with accounting := {} }

/-- The quota tables of two accountings agree. -/
structure SameQuota (a a' : Accounting) : Prop where
  hashes : a'.quotaHashes = a.quotaHashes
  queue : a'.quotaGc = a.quotaGc
  recovery : a'.quotaRecovery = a.quotaRecovery

theorem SameQuota.refl (a : Accounting) : SameQuota a a := ⟨rfl, rfl, rfl⟩

theorem SameQuota.trans {a a' a'' : Accounting} (h : SameQuota a a') (h' : SameQuota a' a'') :
    SameQuota a a'' :=
  ⟨h'.hashes.trans h.hashes, h'.queue.trans h.queue, h'.recovery.trans h.recovery⟩

theorem adjustContributionTx_sameQuota (a : Accounting) (record : AccountingRecord)
    (c : EventContribution) (add : Bool) :
    Ensures (adjustContributionTx a record c add) (fun r => SameQuota a r.1) (fun _ => True) := by
  unfold adjustContributionTx
  dsimp only
  exact (ensures_true _).bind fun _ _ => (ensures_true _).bind fun _ _ =>
    (ensures_true _).bind fun _ _ => ⟨rfl, rfl, rfl⟩

theorem adjustOptionTx_sameQuota (a : Accounting) (record : AccountingRecord)
    (c : Option EventContribution) (add : Bool) :
    Ensures (adjustOptionTx a record c add) (fun r => SameQuota a r.1) (fun _ => True) := by
  unfold adjustOptionTx
  split
  · exact adjustContributionTx_sameQuota a record _ add
  · exact SameQuota.refl a

/-- The queue after some hashes of a snapshot were looked at. -/
structure Requeues (rc : Table ContentHash ℕ) (done : List ContentHash) (a a' : Accounting) : Prop where
  hashes : a'.quotaHashes = a.quotaHashes
  recovery : a'.quotaRecovery = a.quotaRecovery
  queue : ∀ h, h ∈ a'.quotaGc ↔
    h ∈ a.quotaGc ∨ (h ∈ done ∧ h ∈ a.quotaHashes ∧ rc.get h = none)

theorem afterHashTx_requeues (t : EventTables) (s : Accounting × AccountingRecord)
    (item : ContentHash × ℕ) :
    Ensures (afterHashTx t s item) (fun s' => Requeues t.contentRc [item.1] s.1 s'.1)
      (fun _ => True) := by
  unfold afterHashTx
  dsimp only
  refine (ensures_true _).bind fun unique _ => (ensures_true _).bind fun _ _ => ?_
  split
  · next hq =>
    refine ⟨rfl, rfl, fun h => ?_⟩
    rw [Finset.mem_insert, List.mem_singleton]
    constructor
    · rintro (rfl | hmem)
      · exact .inr ⟨rfl, hq⟩
      · exact .inl hmem
    · rintro (hmem | ⟨rfl, -⟩)
      · exact .inr hmem
      · exact .inl rfl
  · next hq =>
    refine ⟨rfl, rfl, fun h => ⟨.inl, ?_⟩⟩
    rintro (hmem | ⟨hh, hown⟩)
    · exact hmem
    · rw [List.mem_singleton] at hh
      subst hh
      exact absurd hown hq

theorem Requeues.append {rc : Table ContentHash ℕ} {done more : List ContentHash}
    {a a' a'' : Accounting} (h : Requeues rc done a a') (h' : Requeues rc more a' a'') :
    Requeues rc (done ++ more) a a'' := by
  refine ⟨h'.hashes.trans h.hashes, h'.recovery.trans h.recovery, fun k => ?_⟩
  rw [h'.queue, h.queue, h.hashes, List.mem_append]
  constructor
  · rintro ((hq | ⟨hd, hrest⟩) | ⟨hd, hrest⟩)
    · exact .inl hq
    · exact .inr ⟨.inl hd, hrest⟩
    · exact .inr ⟨.inr hd, hrest⟩
  · rintro (hq | ⟨hd | hd, hrest⟩)
    · exact .inl (.inl hq)
    · exact .inl (.inr ⟨hd, hrest⟩)
    · exact .inr ⟨hd, hrest⟩

section Collection

variable [Primitives]

theorem afterEventTx_sameQuota (env : Env) (db : Database) (s : AfterScan)
    (item : ShortEventId × Option EventContribution) :
    Ensures (afterEventTx env db s item) (fun s' => SameQuota s.accounting s'.accounting)
      (fun _ => True) := by
  unfold afterEventTx
  refine (ensures_true _).bind fun retention _ => ?_
  split
  · refine (ensures_true _).bind fun new _ => ?_
    refine (adjustOptionTx_sameQuota _ _ _ _).bind fun r hr => ?_
    exact (adjustOptionTx_sameQuota _ _ _ _).bind fun r' hr' => hr.trans hr'
  · exact SameQuota.refl _

/-- **The queue after a bracket**: every owned hash of the snapshot without references was put in. Hashes outside
the snapshot keep their place. -/
theorem payloadAfterTx_requeues (env : Env) (db : Database) (before : PayloadBefore) :
    Ensures (payloadAfterTx env db before) (fun db' =>
      Requeues db.ev.contentRc (before.hashes.map Prod.fst) db.accounting db'.accounting)
      (fun _ => True) := by
  unfold payloadAfterTx
  have hevents := Ensures.foldlM (f := afterEventTx env db) (E := fun _ => True)
    (J := fun s => SameQuota db.accounting s.accounting) before.events
    ⟨db.accounting, accountingTx db.accounting, db.retention, []⟩
    (fun item _ s hs => (afterEventTx_sameQuota env db s item).mono (fun _ h => hs.trans h)
      fun _ h => h) (.refl _)
  refine hevents.bind fun s hs => (ensures_true _).bind fun _ _ => ?_
  have hhashes := Ensures.foldlM_history (f := afterHashTx db.ev) (E := fun _ => True)
    (J := fun done r => Requeues db.ev.contentRc (done.map Prod.fst) s.accounting r.1)
    before.hashes [] (s.accounting, s.record) (fun item _ done r hr => ?_) ?_
  · refine hhashes.bind fun r hr => ?_
    refine ⟨hr.hashes.trans hs.hashes, hr.recovery.trans hs.recovery, fun h => ?_⟩
    have hq := hr.queue h
    rw [hs.queue, hs.hashes] at hq
    exact hq
  · refine (afterHashTx_requeues db.ev r item).mono (fun r' hr' => ?_) fun _ h => h
    rw [List.map_append]
    exact hr.append hr'
  · refine ⟨rfl, rfl, fun h => ?_⟩
    simp

/-! ## 2. Guards are set by protected headers

A guard keeps bytes for the sake of headers that quota may not release. It is never unset, so it may be set for
nothing; but it is not set without such a header. -/

/-- A stored header of the local identity, or of another kind, names this hash. -/
def ProtectedHash (env : Env) (t : EventTables) (h : ContentHash) : Prop :=
  ∃ id e, t.events.get id = some e ∧ e.contentHash = h ∧ isProtectedHeader env e = true

/-- No guard without a protected header. -/
def GuardsBacked (env : Env) (t : EventTables) (a : Accounting) : Prop :=
  ∀ h x, a.hashes.get h = some x → x.protectedHistory = true → ProtectedHash env t h

omit [Primitives] in
theorem adjustContributionTx_backed {env : Env} {t : EventTables} {a : Accounting}
    {record : AccountingRecord} {c : EventContribution} (add : Bool) (h : GuardsBacked env t a)
    (hc : c.isProtected = true → ProtectedHash env t c.hash) :
    Ensures (adjustContributionTx a record c add) (fun r => GuardsBacked env t r.1)
      (fun _ => True) := by
  unfold adjustContributionTx
  dsimp only
  refine (ensures_true _).bind fun references _ => (ensures_true _).bind fun author _ =>
    (ensures_true _).bind fun logical _ => ?_
  intro k x hx hp
  rw [Table.get_insert] at hx
  split at hx
  · next hk =>
    cases hx
    subst hk
    rcases Bool.or_eq_true_iff.mp hp with hp | hp
    · cases hrow : a.hashes.get c.hash with
      | none =>
        rw [hrow] at hp
        cases hp
      | some x =>
        rw [hrow] at hp
        exact h _ x hrow hp
    · exact hc hp
  · exact h k x hx hp

omit [Primitives] in
theorem adjustOptionTx_backed {env : Env} {t : EventTables} {a : Accounting}
    {record : AccountingRecord} {c : Option EventContribution} (add : Bool)
    (h : GuardsBacked env t a)
    (hc : ∀ x, c = some x → x.isProtected = true → ProtectedHash env t x.hash) :
    Ensures (adjustOptionTx a record c add) (fun r => GuardsBacked env t r.1) (fun _ => True) := by
  unfold adjustOptionTx
  split
  · exact adjustContributionTx_backed add h (hc _ rfl)
  · exact h

omit [Primitives] in
theorem protectedHash_of_contributionOf {env : Env} {t : EventTables} {id : ShortEventId}
    {c : EventContribution} (h : contributionOf env t id = some c) (hp : c.isProtected = true) :
    ProtectedHash env t c.hash := by
  obtain ⟨e, he, -, hhash, hprot⟩ := contributionOf_some h
  exact ⟨id, e, he, hhash.symm, by rw [← hprot]; exact hp⟩

omit [Primitives] in
theorem ProtectedHash.mono {env : Env} {t t' : EventTables} {h : ContentHash}
    (hp : ProtectedHash env t h)
    (hev : ∀ id e, t.events.get id = some e → t'.events.get id = some e) :
    ProtectedHash env t' h := by
  obtain ⟨id, e, he, hrest⟩ := hp
  exact ⟨id, e, hev id e he, hrest⟩

/-- **A bracket backs the guards it sets.** -/
theorem payloadAfterTx_backed {env : Env} {t : EventTables} {db₁ : Database}
    {before : PayloadBefore} (h : GuardsBacked env db₁.ev db₁.accounting)
    (hold : ∀ id e, t.events.get id = some e → db₁.ev.events.get id = some e)
    (hbefore : ∀ item ∈ before.events, contributionTx env t item.1 = .ok item.2) :
    Ensures (payloadAfterTx env db₁ before)
      (fun db₂ => GuardsBacked env db₁.ev db₂.accounting) (fun _ => True) := by
  unfold payloadAfterTx
  have hevents := Ensures.foldlM (f := afterEventTx env db₁) (E := fun _ => True)
    (J := fun s => GuardsBacked env db₁.ev s.accounting) before.events
    ⟨db₁.accounting, accountingTx db₁.accounting, db₁.retention, []⟩ (fun item hitem s hs => ?_) h
  · refine hevents.bind fun s hs => (ensures_true _).bind fun _ _ => ?_
    have hhashes := Ensures.foldlM (f := afterHashTx db₁.ev) (E := fun _ => True)
      (J := fun r : Accounting × AccountingRecord => GuardsBacked env db₁.ev r.1) before.hashes
      (s.accounting, s.record) (fun item _ r hr => ?_) hs
    · exact hhashes.bind fun r hr => hr
    · refine (afterHashTx_same db₁.ev r item).mono (fun r' hr' => ?_) fun _ h => h
      rw [hr'.1]
      exact hr
  · unfold afterEventTx
    refine (ensures_true _).bind fun retention _ => ?_
    split
    · refine ((contributionTx_eq env db₁.ev item.1).mono (fun _ h => h) fun _ h => h).bind
        fun new hnew => ?_
      refine (adjustOptionTx_backed false hs fun x hx hp => ?_).bind fun r hr => ?_
      · have hof := ((contributionTx_eq env t item.1).of_ok (hbefore item hitem)).1
        exact (protectedHash_of_contributionOf (hof.symm.trans hx) hp).mono hold
      · refine (adjustOptionTx_backed true hr fun x hx hp => ?_).bind fun r' hr' => hr'
        exact protectedHash_of_contributionOf (hnew.1.symm.trans hx) hp
    · exact hs

omit [Primitives] in
theorem rebuildAccountingStep_backed (env : Env) (db : Database) (a : Accounting)
    (record : AccountingRecord) :
    Ensures (rebuildAccountingStep env db a record) (fun r => SameQuota a r.1 ∧
      (GuardsBacked env db.ev a → GuardsBacked env db.ev r.1)) (fun _ => True) := by
  have hsame : SameQuota a a ∧ (GuardsBacked env db.ev a → GuardsBacked env db.ev a) :=
    ⟨.refl a, fun h => h⟩
  unfold rebuildAccountingStep
  dsimp only
  split
  · split
    · exact hsame
    · next id _ =>
      refine ((contributionTx_eq env db.ev id).mono (fun _ h => h) fun _ h => h).bind
        fun c hc => ?_
      split
      · trivial
      next x =>
      refine Ensures.bind ((ensures_self (adjustContributionTx a record x true)).mono
        (fun _ h => h) fun _ _ => trivial) fun r hr => ?_
      refine ⟨(adjustContributionTx_sameQuota a record x true).of_ok hr, fun h => ?_⟩
      exact (adjustContributionTx_backed true h
        (protectedHash_of_contributionOf hc.1.symm)).of_ok hr
  · split
    · exact hsame
    · exact (ensures_true _).bind fun _ _ => (ensures_true _).bind fun _ _ => hsame
  · split
    · exact hsame
    · exact (ensures_true _).bind fun _ _ => hsame
  · split
    · exact hsame
    · exact (ensures_true _).bind fun _ _ => hsame
  · split
    · exact hsame
    split
    · trivial
    · exact hsame
  · split
    · exact hsame
    · exact (ensures_true _).bind fun _ _ => hsame
  · exact hsame

omit [Primitives] in
theorem rebuildAccountingLoop_backed (env : Env) (db : Database) :
    ∀ (fuel limit : ℕ) (a : Accounting) (record : AccountingRecord),
      Ensures (rebuildAccountingLoop env db fuel limit a record) (fun r => SameQuota a r.1 ∧
        (GuardsBacked env db.ev a → GuardsBacked env db.ev r.1)) (fun _ => True)
  | 0, _, a, _ => ⟨.refl a, fun h => h⟩
  | fuel + 1, limit, a, record => by
    unfold rebuildAccountingLoop
    split
    · exact ⟨.refl a, fun h => h⟩
    refine (rebuildAccountingStep_backed env db a record).bind fun r hr => ?_
    split
    · exact hr
    · exact (rebuildAccountingLoop_backed env db fuel _ _ _).mono
        (fun _ h' => ⟨hr.1.trans h'.1, fun h => h'.2 (hr.2 h)⟩) fun _ h => h

/-! ## 3. Where a queued hash comes from

The provenance of a queued hash is a decision that released content of this hash. As the recovery visits the
decisions one after the other, what is known of one depends on whether it was passed. -/

/-- Has the recovery passed this decision? -/
def QuotaRecovery.visited : QuotaRecovery → ShortEventId → Bool
  | .ready, _ => true
  | .scanning cursor, id => cursor.any (id ≤ ·)

/-- The durable position of the recovery. -/
def recoveryOf (a : Accounting) : QuotaRecovery := a.quotaRecovery.getD (.scanning none)

/-- A decision released content with this hash. -/
def OwnedHash (db : Database) (h : ContentHash) : Prop :=
  ∃ id d e, db.quotaPruned.get id = some d ∧ db.ev.events.get id = some e ∧ e.contentHash = h

/-- A stored event wants the bytes: its content is `Missing` or processed. -/
def ReferencedHash (t : EventTables) (h : ContentHash) : Prop :=
  ∃ id e, t.events.get id = some e ∧ e.contentHash = h ∧
    (contentClass t id = .missing ∨ contentClass t id = .current)

/-- **The provenance of queued hashes**, for a database with the books `a`. A queued hash is owned by a release,
and an owned hash without references is queued, once the recovery has passed its decision. -/
structure Provenance (env : Env) (db : Database) (a : Accounting) : Prop where
  rows : GuardedAt env db.ev a (accountingTx a).stage
  backed : GuardsBacked env db.ev a
  queued : a.quotaGc ⊆ a.quotaHashes
  owned : ∀ h ∈ a.quotaHashes, OwnedHash db h
  visited : ∀ id d e, db.quotaPruned.get id = some d → db.ev.events.get id = some e →
    (recoveryOf a).visited id = true → e.contentHash ∈ a.quotaHashes
  /-- An owned hash that nobody wants waits for the collector. -/
  pending : ∀ h ∈ a.quotaHashes, (db.ev.contentStore.get h).isSome →
    db.ev.contentRc.get h = none → ¬ProtectedHash env db.ev h → h ∈ a.quotaGc

variable {D : Set VerifiedEvent} {Q : Set QuotaPruneRequest} {env : Env} {db db' db₁ : Database}

omit [Primitives] in
theorem GuardedAt.of_eq {t : EventTables} {a a' : Accounting} {stage : AccountingStage}
    (h : GuardedAt env t a stage) (hh : a'.hashes = a.hashes) (ha : a'.authors = a.authors) :
    GuardedAt env t a' stage :=
  fun id e he hc => (h id e he hc).mono (.of_eq hh ha)

omit [Primitives] in
/-- Books that were thrown away have a provenance for nothing. -/
theorem provenance_withoutBooks (env : Env) (db : Database) :
    Provenance env (withoutBooks db) (withoutBooks db).accounting := by
  refine ⟨fun id e _ hc => ?_, fun h x hx => ?_, fun h hh => ?_, fun h hh => ?_, fun id d e _ _ hv => ?_,
    fun h hh => ?_⟩
  · cases hc
  · simp [withoutBooks] at hx
  · simp [withoutBooks] at hh
  · simp [withoutBooks] at hh
  · cases hv
  · simp [withoutBooks] at hh

omit [Primitives] in
/-- Nothing but headers, references, bytes and decisions matters. -/
theorem Provenance.congr {a : Accounting} (h : Provenance env db a)
    (hev : db'.ev.events = db.ev.events) (hrc : db'.ev.contentRc = db.ev.contentRc)
    (hst : db'.ev.contentStore = db.ev.contentStore) (hq : db'.quotaPruned = db.quotaPruned) :
    Provenance env db' a := by
  have howned : ∀ h, OwnedHash db h → OwnedHash db' h := by
    rintro h ⟨id, d, e, hd, he, hh⟩
    exact ⟨id, d, e, by rw [hq]; exact hd, by rw [hev]; exact he, hh⟩
  have hprot : ∀ h, ProtectedHash env db.ev h ↔ ProtectedHash env db'.ev h := by
    intro h
    unfold ProtectedHash
    rw [hev]
  refine ⟨?_, fun k x hx hp => (hprot k).mp (h.backed k x hx hp), h.queued,
    fun k hk => howned k (h.owned k hk), fun id d e hd he hv => ?_, fun k hk hs hr hp => ?_⟩
  · unfold GuardedAt
    rw [hev]
    exact h.rows
  · rw [hq] at hd
    rw [hev] at he
    exact h.visited id d e hd he hv
  · rw [hst] at hs
    rw [hrc] at hr
    exact h.pending k hk hs hr fun hp' => hp ((hprot k).mp hp')

omit [Primitives] in
/-- Other books with the same rows, guards, provenance and queue. -/
theorem Provenance.rebook {a a' : Accounting} (h : Provenance env db a)
    (hrows : GuardedAt env db.ev a' (accountingTx a').stage) (hb : GuardsBacked env db.ev a')
    (hq : SameQuota a a') : Provenance env db a' := by
  have hrec : recoveryOf a' = recoveryOf a := by
    unfold recoveryOf
    rw [hq.recovery]
  refine ⟨hrows, hb, ?_, ?_, ?_, ?_⟩
  · rw [hq.queue, hq.hashes]
    exact h.queued
  · rw [hq.hashes]
    exact h.owned
  · rw [hq.hashes, hrec]
    exact h.visited
  · rw [hq.hashes, hq.queue]
    exact h.pending

/-! ## 4. Brackets

A bracket takes a snapshot of the hashes it can affect before its reducer runs. So the argument is about two kinds
of hashes: those in the snapshot are looked at by the hook, and those outside are as they were. -/

/-- The hashes of a snapshot: the event's own, and that of every stored event it is about. -/
theorem mem_affectedHashes {t : EventTables} {v : VerifiedEvent} {before : PayloadBefore}
    (h : payloadBeforeTx env t v = .ok before) :
    v.event.contentHash ∈ before.hashes.map Prod.fst ∧ ∀ id ∈ affectedIds v, ∀ e,
      t.events.get id = some e → e.contentHash ∈ before.hashes.map Prod.fst := by
  have hids := (payloadBeforeTx_ids env t v).of_ok h
  have hhashes : before.hashes.map Prod.fst = before.events.foldl (fun hashes item => item.2.elim hashes fun old =>
      if old.hash ∈ hashes then hashes else hashes ++ [old.hash]) [v.event.contentHash] := by
    unfold payloadBeforeTx at h
    obtain ⟨events, -, hb⟩ := bind_eq_ok.mp h
    cases hb
    rw [List.map_map]
    refine (List.map_id' _).trans (congrArg (fun f => List.foldl f _ _) ?_)
    funext hashes item
    cases item.2 with
    | none => rfl
    | some old => rfl
  have hfold : ∀ (olds : List (ShortEventId × Option EventContribution)) (hs : List ContentHash),
      (∀ k ∈ hs, k ∈ olds.foldl (fun hashes item => item.2.elim hashes fun old =>
        if old.hash ∈ hashes then hashes else hashes ++ [old.hash]) hs) ∧
      ∀ item ∈ olds, ∀ c, item.2 = some c → c.hash ∈ olds.foldl (fun hashes item =>
        item.2.elim hashes fun old => if old.hash ∈ hashes then hashes else hashes ++ [old.hash]) hs := by
    intro olds
    induction olds with
    | nil => exact fun hs => ⟨fun k hk => hk, fun item hi => by cases hi⟩
    | cons item olds ih =>
      intro hs
      rw [List.foldl_cons]
      obtain ⟨hkeep, hnew⟩ := ih (item.2.elim hs fun old =>
        if old.hash ∈ hs then hs else hs ++ [old.hash])
      refine ⟨fun k hk => hkeep k ?_, fun i hi c hc => ?_⟩
      · cases item.2 with
        | none => exact hk
        | some old =>
          rw [Option.elim_some]
          split
          · exact hk
          · exact List.mem_append_left _ hk
      · rcases List.mem_cons.mp hi with rfl | hi
        · refine hkeep _ ?_
          rw [hc, Option.elim_some]
          split
          · next hmem => exact hmem
          · simp
        · exact hnew i hi c hc
  rw [hhashes]
  refine ⟨(hfold before.events _).1 _ (by simp), fun id hid e he => ?_⟩
  rw [← hids.1] at hid
  obtain ⟨item, hitem, rfl⟩ := List.mem_map.mp hid
  have hof := ((contributionTx_eq env t item.1).of_ok (hids.2 item hitem)).1
  simp only [contributionOf, he, Option.map_some] at hof
  exact (hfold before.events _).2 item hitem _ hof

omit [Primitives] in
/-- With balanced books, a reference is a row. -/
theorem Balanced.rc_none_iff {t : EventTables} (hb : Balanced t) (h : ContentHash) :
    t.contentRc.get h = none ↔ ¬ReferencedHash t h := by
  constructor
  · rintro hrc ⟨id, e, he, hh, hclass⟩
    have hun := hb.unreferenced hrc he hh
    rw [(referenced_iff _).mpr hclass] at hun
    cases hun
  · intro hno
    rw [hb.rc h, if_pos]
    rw [refs_eq_card, Finset.card_eq_zero, Finset.eq_empty_iff_forall_notMem]
    intro id hid
    simp only [referencing, Finset.mem_filter] at hid
    obtain ⟨hkey, hhash, hclass⟩ := hid
    obtain ⟨e, he⟩ := Table.mem_keys.mp hkey
    rw [he] at hhash
    exact hno ⟨id, e, he, by simpa using hhash, hclass⟩

/-- **References outside the snapshot are not touched**, because a reducer changes the state of its event and of
the parent only. -/
theorem Footprint.referenced {v : VerifiedEvent} {before : PayloadBefore}
    (hf : Footprint db v db₁) (hbefore : payloadBeforeTx env db.ev v = .ok before)
    {h : ContentHash} (hout : h ∉ before.hashes.map Prod.fst) (hr : ReferencedHash db.ev h) :
    ReferencedHash db₁.ev h := by
  obtain ⟨id, e, he, hh, hclass⟩ := hr
  have hid : id ∉ affectedIds v := by
    intro hid
    exact hout (hh ▸ (mem_affectedHashes hbefore).2 id hid e he)
  refine ⟨id, e, hf.kept he, hh, ?_⟩
  rw [contentClass, hf.states id hid]
  exact hclass

/-- What may happen to the nominations inside a bracket: one more hash has an owner, and waits for the collector. -/
structure Nominates (a a' : Accounting) (k : ContentHash) : Prop where
  hashes : ∀ h ∈ a'.quotaHashes, h ∈ a.quotaHashes ∨ h = k
  kept : a.quotaHashes ⊆ a'.quotaHashes
  queue : a.quotaGc ⊆ a'.quotaGc
  queued : a.quotaGc ⊆ a.quotaHashes → a'.quotaGc ⊆ a'.quotaHashes
  retains : Retains a a'
  stage : (accountingTx a').stage = (accountingTx a).stage
  recovery : recoveryOf a' = recoveryOf a
  guards : a'.hashes = a.hashes

/-- **A reducer nominates** at most the hash of its own event, and only as a quota release. -/
theorem Reducer.nominates {v : VerifiedEvent} (h : Reducer env D Q db v db₁) :
    Nominates db.accounting db₁.accounting v.event.contentHash := by
  rcases h.accounting with heq | heq
  · rw [heq]
    exact ⟨fun _ => .inl, Finset.Subset.refl _, Finset.Subset.refl _, id, .refl _, rfl, rfl, rfl⟩
  · rw [heq]
    exact ⟨fun _ hk => (Finset.mem_insert.mp hk).symm, Finset.subset_insert .., Finset.subset_insert ..,
      Finset.insert_subset_insert _, .of_eq rfl rfl, rfl, rfl, rfl⟩

/-- A decision was there before, or its hash has just been nominated. -/
theorem Reducer.decision {v : VerifiedEvent} (h : Reducer env D Q db v db₁) (hf : Footprint db v db₁)
    (hd : Decided env Q db) {id : ShortEventId} {d : QuotaPruneDecision} {e : Event}
    (hrow : db₁.quotaPruned.get id = some d) (he : db₁.ev.events.get id = some e) :
    (∃ d, db.quotaPruned.get id = some d ∧ db.ev.events.get id = some e) ∨
      e.contentHash ∈ db₁.accounting.quotaHashes := by
  have hold : ∀ d, db.quotaPruned.get id = some d → ∃ d, db.quotaPruned.get id = some d ∧
      db.ev.events.get id = some e := by
    intro d hrow
    obtain ⟨e', o, request, hfor⟩ := hd id d hrow
    have he' := hf.kept hfor.stored
    rw [he] at he'
    cases he'
    exact ⟨d, hrow, hfor.stored⟩
  rcases h.decisions with ⟨heq, -⟩ | ⟨request, e', now, o, -, hrel, -, -, -, heq, hacc⟩
  · rw [heq] at hrow
    exact .inl (hold d hrow)
  · rw [heq, Table.get_insert] at hrow
    split at hrow
    · next hid =>
      subst hid
      have he' := hf.kept hrel.stored
      rw [he] at he'
      cases he'
      rw [hacc]
      exact .inr (Finset.mem_insert_self ..)
    · exact .inl (hold d hrow)

/-- A hash keeps its owner. -/
theorem Reducer.ownedHash {v : VerifiedEvent} (h : Reducer env D Q db v db₁) (hf : Footprint db v db₁)
    {k : ContentHash} (hk : OwnedHash db k) : OwnedHash db₁ k := by
  obtain ⟨id, d, e, hrow, he, hh⟩ := hk
  refine ⟨id, d, e, ?_, hf.kept he, hh⟩
  rcases h.decisions with ⟨heq, -⟩ | ⟨request, e', now, o, -, hrel, -, -, -, heq, -⟩
  · rw [heq]
    exact hrow
  · rw [heq, Table.get_insert_of_ne _ _ ?_]
    · exact hrow
    · rintro rfl
      rw [hrel.undecided] at hrow
      cases hrow

/-- And a hash that is nominated has one: the event that was released. -/
theorem Reducer.owned {v : VerifiedEvent} (h : Reducer env D Q db v db₁) (hf : Footprint db v db₁)
    (howned : ∀ k ∈ db.accounting.quotaHashes, OwnedHash db k) {k : ContentHash}
    (hk : k ∈ db₁.accounting.quotaHashes) : OwnedHash db₁ k := by
  rcases h.decisions with ⟨-, hacc⟩ | ⟨request, e, now, o, -, hrel, -, -, -, heq, hacc⟩
  · rw [hacc] at hk
    exact h.ownedHash hf (howned k hk)
  · rw [hacc] at hk
    rcases Finset.mem_insert.mp hk with rfl | hk
    · exact ⟨request.id, _, e, by rw [heq, Table.get_insert_self], hf.kept hrel.stored, rfl⟩
    · exact h.ownedHash hf (howned k hk)

/-- **A bracket keeps the provenance.** Rows and guards come from the end of the bracket; for the queue, a hash
that was nominated and one that lost its last reference are told apart. -/
theorem bracket_provenance {v : VerifiedEvent} {before : PayloadBefore} {db₂ : Database}
    (hg : Grounded D db.ev) (hb : Balanced db.ev) (hb₁ : Balanced db₁.ev) (hd : Decided env Q db)
    (hp : Provenance env db db.accounting) (hbefore : payloadBeforeTx env db.ev v = .ok before)
    (hred : Reducer env D Q db v db₁) (hafter : payloadAfterTx env db₁ before = .ok db₂) :
    Provenance env db₁ db₂.accounting := by
  have hf := hred.footprint hg
  have hids := (payloadBeforeTx_ids env db.ev v).of_ok hbefore
  have hq := (payloadAfterTx_requeues env db₁ before).of_ok hafter
  have hn := hred.nominates
  have hown : v.event.contentHash ∈ before.hashes.map Prod.fst := (mem_affectedHashes hbefore).1
  refine ⟨?_, ?_, ?_, ?_, ?_, ?_⟩
  · refine ((payloadAfterTx_rows hp.rows hids.1 hn.retains hn.stage fun id e he => ?_).of_ok hafter).1
    exact (hf.arrived he).imp_right And.left
  · refine (payloadAfterTx_backed ?_ (fun id e he => hf.kept he) hids.2).of_ok hafter
    intro h x hx hpr
    rw [hn.guards] at hx
    exact (hp.backed h x hx hpr).mono fun id e he => hf.kept he
  · intro h hh
    rw [hq.hashes]
    rcases (hq.queue h).mp hh with hh | ⟨-, hh, -⟩
    · exact hn.queued hp.queued hh
    · exact hh
  · intro h hh
    rw [hq.hashes] at hh
    exact hred.owned hf hp.owned hh
  · intro id d e hrow he hv
    rw [hq.hashes]
    rcases hred.decision hf hd hrow he with ⟨d', hrow', he'⟩ | hmem
    · refine hn.kept (hp.visited id d' e hrow' he' ?_)
      rw [← hn.recovery]
      unfold recoveryOf at hv ⊢
      rw [hq.recovery] at hv
      exact hv
    · exact hmem
  · intro h hh hs hrc hprot
    rw [hq.hashes] at hh
    refine (hq.queue h).mpr ?_
    by_cases hin : h ∈ before.hashes.map Prod.fst
    · exact .inr ⟨hin, hh, hrc⟩
    · -- outside the snapshot everything is as it was
      have hne : h ≠ v.event.contentHash := by
        rintro rfl
        exact hin hown
      refine .inl (hn.queue (hp.pending h ((hn.hashes h hh).resolve_right hne) ?_ ?_ ?_))
      · rcases hf.store with heq | ⟨-, b, -, heq⟩
        · rw [heq] at hs
          exact hs
        · rw [heq, Table.get_insert_of_ne _ _ hne] at hs
          exact hs
      · rw [hb.rc_none_iff]
        intro href
        exact (hb₁.rc_none_iff h).mp hrc (hf.referenced hbefore hin href)
      · exact fun hpr => hprot (hpr.mono fun id e he => hf.kept he)

/-! ## 5. The collector and the recovery

The collector looks at one nomination at a time, and consumes it whatever it finds. -/

/-- The books once a nomination was visited. -/
def consumedBooks (db : Database) (h : ContentHash) (usage : PayloadUsage) : Accounting :=
  { db.accounting with
    quotaGc := db.accounting.quotaGc.erase h
    state := some { accountingTx db.accounting with usage := usage } }

/-- What the collector found out about a nominated hash before it acts. -/
structure Nominated (db : Database) (h : ContentHash) (guard : HashAccounting) : Prop where
  ready : (accountingTx db.accounting).stage = .ready
  nominated : h ∈ db.accounting.quotaGc
  row : db.accounting.hashes.get h = some guard
  agrees : db.ev.contentRc.get h ≠ some 0 ∧ (db.ev.contentRc.get h).getD 0 = guard.references

/-- **One step of the collector**: it does nothing, drops a nomination that is wanted, or removes the
bytes. -/
inductive Collects (db : Database) (maxBytes : ℕ) : Database × Option ContentHash × ℕ → Prop
  | nothing (cursor : Option ContentHash) : Collects db maxBytes (db, cursor, 0)
  | dropped {h : ContentHash} {guard : HashAccounting} (hv : Nominated db h guard)
      (hwanted : guard.references ≠ 0 ∨ guard.protectedHistory = true) :
      Collects db maxBytes
        ({ db with accounting := consumedBooks db h (accountingTx db.accounting).usage }, some h, 0)
  | removed {h : ContentHash} {guard : HashAccounting} (hv : Nominated db h guard)
      (hfree : guard.references = 0 ∧ guard.protectedHistory = false)
      (hroom : storedLenTx db.ev h ≤ maxBytes) (unique : ℕ)
      (hunique : unique + storedLenTx db.ev h =
        (accountingTx db.accounting).usage.uniqueStoredBytes) :
      Collects db maxBytes ({ db with
        ev := { db.ev with contentStore := db.ev.contentStore.remove h }
        accounting := consumedBooks db h
          { (accountingTx db.accounting).usage with uniqueStoredBytes := unique } },
        some h, storedLenTx db.ev h)

omit [Primitives] in
theorem requirePayloadAccountingReadyTx_ready (a : Accounting) :
    Ensures (requirePayloadAccountingReadyTx a) (fun _ => (accountingTx a).stage = .ready)
      (fun _ => True) := by
  unfold requirePayloadAccountingReadyTx
  split
  · next h => exact h
  · trivial

omit [Primitives] in
theorem validateHashTx_agrees (t : EventTables) (a : Accounting) (h : ContentHash) :
    Ensures (validateHashTx t a h) (fun _ => t.contentRc.get h ≠ some 0 ∧
      (t.contentRc.get h).getD 0 = ((a.hashes.get h).getD {}).references) (fun _ => True) := by
  unfold validateHashTx
  dsimp only
  split
  · trivial
  · next hno =>
    rw [not_or, not_not] at hno
    exact hno

omit [Primitives] in
theorem collectQuotaPayloadStepTx_collects (db : Database) (after : Option ContentHash)
    (maxBytes : ℕ) :
    Ensures (collectQuotaPayloadStepTx db after maxBytes) (Collects db maxBytes)
      (fun _ => True) := by
  unfold collectQuotaPayloadStepTx
  dsimp only
  refine (requirePayloadAccountingReadyTx_ready _).bind fun _ hready => ?_
  split
  · exact .nothing none
  next h hnext =>
  have hmem : h ∈ db.accounting.quotaGc := (Table.mem_beyond.mp (Table.least_mem hnext)).1
  refine (validateHashTx_agrees db.ev db.accounting h).bind fun _ hagrees => ?_
  split
  · trivial
  next guard hguard =>
  rw [hguard, Option.getD_some] at hagrees
  have hv : Nominated db h guard := ⟨hready, hmem, hguard, hagrees⟩
  split
  · next hfree =>
    split
    · exact .nothing (some h)
    next hroom =>
    refine (changeTx_out _ _).bind fun unique hunique => ?_
    exact .removed hv ⟨hfree.1, by simpa using hfree.2⟩ (not_lt.mp hroom) unique hunique
  · next hno =>
    refine .dropped hv ?_
    by_contra hneither
    rw [not_or, not_not, Bool.not_eq_true] at hneither
    exact hno ⟨hneither.1, by simpa using hneither.2⟩

omit [Primitives] in
/-- A hash without a counted reference has no row. -/
theorem Nominated.rc_none {h : ContentHash} {guard : HashAccounting} (hv : Nominated db h guard)
    (hfree : guard.references = 0) : db.ev.contentRc.get h = none := by
  cases hrc : db.ev.contentRc.get h with
  | none => rfl
  | some n =>
    have hagrees := hv.agrees
    rw [hrc, hfree] at hagrees
    exact absurd (congrArg some hagrees.2) hagrees.1

omit [Primitives] in
/-- **A guard that is not set protects nothing**: every header was counted, so a header that protects the hash
would have set it. -/
theorem Nominated.unprotected {h : ContentHash} {guard : HashAccounting} (hv : Nominated db h guard)
    (hp : Provenance env db db.accounting) (hfree : guard.protectedHistory = false) :
    ¬ProtectedHash env db.ev h := by
  rintro ⟨id, e, he, rfl, hprot⟩
  have hcounted : eventCounted (accountingTx db.accounting).stage id = true := by
    rw [hv.ready]
    rfl
  obtain ⟨x, hx, hset⟩ := (hp.rows id e he hcounted).hash
  rw [hv.row] at hx
  cases hx
  rw [hset hprot] at hfree
  cases hfree

omit [Primitives] in
/-- **The collector keeps the provenance.** It removes the bytes and the nomination together. -/
theorem Collects.provenance {maxBytes : ℕ} {r : Database × Option ContentHash × ℕ}
    (h : Collects db maxBytes r) (hp : Provenance env db db.accounting) :
    Provenance env r.1 r.1.accounting := by
  have hbooks : ∀ (k : ContentHash) (usage : PayloadUsage),
      ((db.ev.contentStore.get k).isSome → db.ev.contentRc.get k = none →
        ProtectedHash env db.ev k) →
      Provenance env db (consumedBooks db k usage) := by
    intro k usage hk
    refine ⟨hp.rows.of_eq rfl rfl, hp.backed, (Finset.erase_subset ..).trans hp.queued, hp.owned, hp.visited,
      fun h' hh hs hrc hprot => Finset.mem_erase.mpr ⟨?_, hp.pending h' hh hs hrc hprot⟩⟩
    rintro rfl
    exact hprot (hk hs hrc)
  cases h with
  | nothing cursor => exact hp
  | @dropped k guard hv hwanted =>
    refine (hbooks k _ fun _ hrc => ?_).congr rfl rfl rfl rfl
    rcases hwanted with href | hset
    · have hagrees := hv.agrees.2
      rw [hrc] at hagrees
      exact absurd hagrees.symm href
    · exact hp.backed k guard hv.row hset
  | @removed k guard hv hfree hroom unique hunique =>
    refine ⟨hp.rows.of_eq rfl rfl, hp.backed, (Finset.erase_subset ..).trans hp.queued, hp.owned,
      hp.visited, fun h' hh hs hrc hprot => ?_⟩
    have hne : h' ≠ k := by
      rintro rfl
      simp at hs
    simp only [Table.get_remove_of_ne _ hne] at hs
    exact Finset.mem_erase.mpr ⟨hne, hp.pending h' hh hs hrc hprot⟩

omit [Primitives] in
/-- **The recovery keeps the provenance**, decision by decision. Its cursor runs over the stored decisions, and
what it has passed is nominated. -/
theorem recoverNominationsLoop_provenance (env : Env) (db : Database) :
    ∀ (limit : ℕ) (a : Accounting) (stage : QuotaRecovery),
      Provenance env db { a with quotaRecovery := some stage } →
        Ensures (recoverNominationsLoop env db limit a stage)
          (fun r => Provenance env db { r.1 with quotaRecovery := some r.2 }) (fun _ => True)
  | 0, _, _, hp => hp
  | limit + 1, a, stage, hp => by
    unfold recoverNominationsLoop
    split
    · exact hp
    next cursor =>
    have hbeyond : ∀ id, (QuotaRecovery.scanning cursor).visited id = false →
        id ∈ db.quotaPruned.keys → id ∈ Table.beyond db.quotaPruned.keys cursor := by
      intro id hv hkey
      cases cursor with
      | none => exact hkey
      | some c => simpa [Table.beyond, hkey, QuotaRecovery.visited] using hv
    split
    · next hnone =>
      -- nothing is ahead: every decision was visited
      refine ⟨hp.rows.of_eq rfl rfl, hp.backed, hp.queued, hp.owned, fun id d e hrow he _ => ?_,
        hp.pending⟩
      by_cases hv : (QuotaRecovery.scanning cursor).visited id = true
      · exact hp.visited id d e hrow he hv
      · have hmem := hbeyond id (by simpa using hv) (Table.mem_keys_of_get hrow)
        rw [Table.least_none hnone] at hmem
        simp at hmem
    next id hnext =>
    split
    · next e state he hst =>
      split
      · trivial
      refine recoverNominationsLoop_provenance env db limit _ _
        ⟨hp.rows.of_eq rfl rfl, hp.backed, ?_, ?_, ?_, ?_⟩
      · exact Finset.insert_subset_insert _ hp.queued
      · intro h hh
        rcases Finset.mem_insert.mp hh with rfl | hh
        · obtain ⟨d, hd⟩ := Table.mem_keys.mp (Table.mem_beyond.mp (Table.least_mem hnext)).1
          exact ⟨id, d, e, hd, he, rfl⟩
        · exact hp.owned h hh
      · intro id' d e' hrow he' hv
        have hle : id' ≤ id := by simpa [recoveryOf, QuotaRecovery.visited] using hv
        by_cases hold : (QuotaRecovery.scanning cursor).visited id' = true
        · exact Finset.mem_insert_of_mem (hp.visited id' d e' hrow he' hold)
        · have hmem := hbeyond id' (by simpa using hold) (Table.mem_keys_of_get hrow)
          obtain rfl : id' = id := le_antisymm hle (Table.least_le hnext hmem)
          rw [he] at he'
          cases he'
          exact Finset.mem_insert_self ..
      · intro h hh hs hrc hprot
        rcases Finset.mem_insert.mp hh with rfl | hh
        · exact Finset.mem_insert_self ..
        · exact Finset.mem_insert_of_mem (hp.pending h hh hs hrc hprot)
    · trivial

omit [Primitives] in
theorem recoverNominationsLoop_hashes (env : Env) (db : Database) :
    ∀ (limit : ℕ) (a : Accounting) (stage : QuotaRecovery),
      Ensures (recoverNominationsLoop env db limit a stage)
        (fun r => a.quotaHashes ⊆ r.1.quotaHashes) (fun _ => True)
  | 0, a, _ => Finset.Subset.refl _
  | limit + 1, a, stage => by
    unfold recoverNominationsLoop
    split
    · exact Finset.Subset.refl _
    split
    · exact Finset.Subset.refl _
    split
    · split
      · trivial
      · exact (recoverNominationsLoop_hashes env db limit _ _).mono
          (fun _ h => (Finset.subset_insert ..).trans h) fun _ h => h
    · trivial

/-- The books say what they should about the quota path. -/
structure QuotaBooks (env : Env) (Q : Set QuotaPruneRequest) (db : Database) : Prop where
  decided : Decided env Q db
  provenance : Provenance env db db.accounting

omit [Primitives] in
theorem rebuildPayloadAccounting_provenance {limit : ℕ} (hp : Provenance env db db.accounting)
    (h : rebuildPayloadAccounting env db limit = .ok db') :
    Provenance env db' db'.accounting := by
  simp only [rebuildPayloadAccounting] at h
  split at h
  · cases h
  · obtain ⟨r, hr, hdb⟩ := bind_eq_ok.mp h
    cases hdb
    have hback := (rebuildAccountingLoop_backed env db _ _ _ _).of_ok hr
    have hrows := (rebuildAccountingLoop_guarded env db _ _ _ _ hp.rows).of_ok hr
    have hrebooked : Provenance env db { r.1 with state := some r.2 } :=
      hp.rebook (hrows.of_eq rfl rfl) (hback.2 hp.backed)
        ⟨hback.1.hashes, hback.1.queue, hback.1.recovery⟩
    exact hrebooked.congr rfl rfl rfl rfl

omit [Primitives] in
theorem rebuildQuotaPayloadNominations_provenance {limit : ℕ}
    (hp : Provenance env db db.accounting)
    (h : rebuildQuotaPayloadNominations env db limit = .ok db') :
    Provenance env db' db'.accounting := by
  simp only [rebuildQuotaPayloadNominations] at h
  split at h
  · cases h
  · obtain ⟨r, hr, hdb⟩ := bind_eq_ok.mp h
    cases hdb
    have hstart : Provenance env db { db.accounting with
        quotaRecovery := some (recoveryOf db.accounting) } :=
      ⟨hp.rows.of_eq rfl rfl, hp.backed, hp.queued, hp.owned, hp.visited, hp.pending⟩
    exact ((recoverNominationsLoop_provenance env db limit _ _ hstart).of_ok hr).congr rfl rfl rfl rfl

/-- **Every piece keeps the quota books**: brackets by `bracket_provenance`, the others one by one. -/
theorem Piece.quotaBooks (h : Piece env D Q db db') (hI : OnGround D Balanced db.ev)
    (hI' : OnGround D Balanced db'.ev) (hq : QuotaBooks env Q db) : QuotaBooks env Q db' := by
  refine ⟨h.decided hI.1 hq.decided, ?_⟩
  have hp := hq.provenance
  cases h with
  | @bracket v before db₁ db₂ t hbefore hred hafter hreq =>
    have haside := (payloadAfterTx_eq hafter hreq).1
    have hev := haside.eq
    have hb₁ : Balanced db₁.ev := by
      refine hI'.2.congr ?_ ?_ ?_ fun id e _ => (haside.classes id).symm
      · rw [hev]
      · rw [hev]
      · rw [hev]
    have hp₁ := bracket_provenance hI.1 hI.2 hb₁ hq.decided hp hbefore hred hafter
    obtain ⟨a, x, hdb₂⟩ := (payloadAfterTx_ensures env db₁ before).of_ok hafter
    refine hp₁.congr ?_ ?_ ?_ ?_
    · rw [hreq.eq, hdb₂]
    · rw [hreq.eq, hdb₂]
    · rw [hreq.eq, hdb₂]
    · rw [hdb₂]
  | collected h => exact ((collectQuotaPayloadStepTx_collects db _ _).of_ok h).provenance hp
  | accounted h => exact rebuildPayloadAccounting_provenance hp h
  | nominated h => exact rebuildQuotaPayloadNominations_provenance hp h
  | configured policy => exact hp.congr rfl rfl rfl rfl
  | @indexed limit db' h =>
    have heq := (rebuildRetentionIndex_eq env db limit).of_ok h
    rw [heq]
    exact hp.congr rfl rfl rfl rfl
  | @promoted clock limit db' h =>
    have heq := (promoteRetentionGrace_eq db clock limit).of_ok h
    rw [heq]
    exact hp.congr rfl rfl rfl rfl
  | scheduled h =>
    rw [h.eq]
    exact hp.congr rfl rfl rfl rfl
  | ranked postId now => exact hp.congr rfl rfl rfl rfl

/-- An owned hash stays owned. -/
theorem Piece.quotaHashes (h : Piece env D Q db db') :
    db.accounting.quotaHashes ⊆ db'.accounting.quotaHashes := by
  cases h with
  | @bracket v before db₁ db₂ t hbefore hred hafter hreq =>
    rw [((payloadAfterTx_requeues env db₁ before).of_ok hafter).hashes]
    rcases hred.accounting with heq | heq
    · rw [heq]
    · rw [heq]
      exact Finset.subset_insert ..
  | collected h =>
    cases (collectQuotaPayloadStepTx_collects db _ _).of_ok h with
    | nothing cursor => exact Finset.Subset.refl _
    | dropped hv hwanted => exact Finset.Subset.refl _
    | removed hv hfree hroom unique hunique => exact Finset.Subset.refl _
  | accounted h =>
    simp only [rebuildPayloadAccounting] at h
    split at h
    · cases h
    · obtain ⟨r, hr, hdb⟩ := bind_eq_ok.mp h
      cases hdb
      exact ((rebuildAccountingLoop_backed env db _ _ _ _).of_ok hr).1.hashes.ge
  | nominated h =>
    simp only [rebuildQuotaPayloadNominations] at h
    split at h
    · cases h
    · obtain ⟨r, hr, hdb⟩ := bind_eq_ok.mp h
      cases hdb
      exact (recoverNominationsLoop_hashes env db _ _ _).of_ok hr
  | configured policy => exact Finset.Subset.refl _
  | @indexed limit db' h =>
    rw [(rebuildRetentionIndex_eq env db limit).of_ok h]
  | @promoted clock limit db' h =>
    rw [(promoteRetentionGrace_eq db clock limit).of_ok h]
  | scheduled h => exact Finset.Subset.refl _
  | ranked postId now => exact Finset.Subset.refl _

/-! ## 6. Along every run

Safety and completeness, with arbitrary interleavings of rebuilds, recoveries, collections and deliveries. -/

/-- A run from a reached database whose books were thrown away; with `before` empty, any run. -/
def rebooked (env : Env) (before ops : List Op) : Database :=
  run (step env) (withoutBooks (reached env before)) ops

theorem rebooked_quotaBooks (env : Env) (hcf : CollisionFree D) (before ops : List Op)
    (hD : DeliveredFrom D (before ++ ops)) :
    OnGround D Balanced (rebooked env before ops).ev ∧
      QuotaBooks env (requestsOf (before ++ ops)) (rebooked env before ops) := by
  have hI := reached_keeps env (balanced_keeps D) hcf balanced_empty before
    fun o ho => hD o (List.mem_append_left _ ho)
  have hd := run_pieces env (J := Decided env (requestsOf (before ++ ops))) (anything_keeps D) hcf
    (fun _ _ hI _ hp hd => hp.decided hI.1 hd) before (fun o ho => hD o (List.mem_append_left _ ho))
    (fun q hq => List.mem_append_left _ hq) ⟨grounded_empty D, trivial⟩ (decided_empty env _)
  exact run_pieces env (balanced_keeps D) hcf (fun _ _ hI hI' hp hq => hp.quotaBooks hI hI' hq) ops
    (fun o ho => hD o (List.mem_append_right _ ho)) (fun q hq => List.mem_append_right _ hq)
    hI ⟨(Aside.of_accounting rfl).decided hd.2, provenance_withoutBooks env _⟩

/-- What one collection may do. -/
structure SafeCollection (env : Env) (db db' : Database) (maxBytes removedBytes : ℕ) : Prop where
  /-- Bytes, the queue and the accounting record; nothing else. -/
  frame : db' = { db with
    ev := { db.ev with contentStore := db'.ev.contentStore }
    accounting := { db.accounting with
      quotaGc := db'.accounting.quotaGc
      state := db'.accounting.state } }
  removal : (db'.ev.contentStore = db.ev.contentStore ∧ removedBytes = 0) ∨
    ∃ h, db'.ev.contentStore = db.ev.contentStore.remove h ∧
      removedBytes = storedLenTx db.ev h ∧ removedBytes ≤ maxBytes ∧
      ¬ReferencedHash db.ev h ∧ ¬ProtectedHash env db.ev h ∧ OwnedHash db h

/-- **Garbage collection never removes wanted bytes.** After any run, with the books thrown away and rebuilt at any
point of it, one step of the collector removes the bytes of one hash at most; no event refers to them, none
protects them, and a quota release owns them. -/
theorem collector_spares_wanted (env : Env) (hcf : CollisionFree D) (before ops : List Op)
    (hD : DeliveredFrom D (before ++ ops)) (after cursor : Option ContentHash)
    (maxBytes removedBytes : ℕ) (hok : collectQuotaPayloadStepTx (rebooked env before ops) after
      maxBytes = .ok (db', cursor, removedBytes)) :
    SafeCollection env (rebooked env before ops) db' maxBytes removedBytes := by
  obtain ⟨hI, hbooks⟩ := rebooked_quotaBooks env hcf before ops hD
  have hcollects := (collectQuotaPayloadStepTx_collects _ after maxBytes).of_ok hok
  generalize rebooked env before ops = db at hI hbooks hcollects ⊢
  have hp := hbooks.provenance
  cases hcollects with
  | nothing cursor => exact ⟨rfl, .inl ⟨rfl, rfl⟩⟩
  | dropped hv hwanted => exact ⟨rfl, .inl ⟨rfl, rfl⟩⟩
  | @removed h guard hv hfree hroom unique hunique =>
    refine ⟨rfl, .inr ⟨h, rfl, rfl, hroom, ?_, hv.unprotected hp hfree.2, ?_⟩⟩
    · exact (hI.2.rc_none_iff h).mp (hv.rc_none hfree.1)
    · exact hp.owned h (hp.queued hv.nominated)

/-- Nobody wants these bytes, and they are still here. -/
structure Unwanted (env : Env) (db : Database) (h : ContentHash) : Prop where
  stored : (db.ev.contentStore.get h).isSome
  unreferenced : ¬ReferencedHash db.ev h
  unprotected : ¬ProtectedHash env db.ev h

/-- **No nomination is lost.**  Once the recovery is done, the unwanted hash of every decision is in
the queue.  Before that the same holds of every owned hash, so that a release by any path queues it;
and a hash leaves the queue only when its bytes go or when it is wanted. -/
theorem nominations_complete (env : Env) (hcf : CollisionFree D) (before ops later : List Op)
    (hD : DeliveredFrom D (before ++ (ops ++ later))) :
    let db := rebooked env before ops
    let db' := rebooked env before (ops ++ later)
    (∀ id d e, db.quotaPruned.get id = some d → db.ev.events.get id = some e →
      ((recoveryOf db.accounting).visited id = true → e.contentHash ∈ db.accounting.quotaHashes) ∧
      (db.accounting.quotaRecovery = some .ready → Unwanted env db e.contentHash →
        e.contentHash ∈ db.accounting.quotaGc)) ∧
    (∀ h ∈ db.accounting.quotaHashes, Unwanted env db' h → h ∈ db'.accounting.quotaGc) ∧
    ∀ h ∈ db.accounting.quotaGc, h ∉ db'.accounting.quotaGc →
      db'.ev.contentStore.get h = none ∨ ReferencedHash db'.ev h ∨ ProtectedHash env db'.ev h := by
  intro db db'
  have hsub : ∀ o ∈ before ++ ops, o ∈ before ++ (ops ++ later) := by
    intro o ho
    rw [← List.append_assoc]
    exact List.mem_append_left _ ho
  obtain ⟨hI, hbooks⟩ := rebooked_quotaBooks env hcf before ops fun o ho => hD o (hsub o ho)
  obtain ⟨hI', hbooks'⟩ := rebooked_quotaBooks env hcf before (ops ++ later) hD
  have hp := hbooks.provenance
  have hpending : ∀ {s : Database}, Balanced s.ev → Provenance env s s.accounting →
      ∀ h ∈ s.accounting.quotaHashes, Unwanted env s h → h ∈ s.accounting.quotaGc :=
    fun hb hp h hh hu => hp.pending h hh hu.stored ((hb.rc_none_iff h).mpr hu.unreferenced)
      hu.unprotected
  have hgrow : db.accounting.quotaHashes ⊆ db'.accounting.quotaHashes := by
    have hrun := run_pieces_relation env
      (R := fun s s' => s.accounting.quotaHashes ⊆ s'.accounting.quotaHashes)
      (J := fun _ => True) (anything_keeps D) hcf (fun _ => Finset.Subset.refl _)
      (fun _ _ _ h h' => h.trans h') (fun s s' _ _ hp _ => ⟨trivial, hp.quotaHashes⟩) later
      (fun o ho => hD o (List.mem_append_right _ (List.mem_append_right _ ho)))
      (requestedFrom_univ later) ⟨hI.1, trivial⟩ trivial
    show _ ⊆ (run (step env) _ (ops ++ later)).accounting.quotaHashes
    rw [run_append]
    exact hrun
  have hreleased : ∀ h ∈ db.accounting.quotaHashes, Unwanted env db' h →
      h ∈ db'.accounting.quotaGc :=
    fun h hh hu => hpending hI'.2 hbooks'.provenance h (hgrow hh) hu
  refine ⟨fun id d e hrow he => ⟨hp.visited id d e hrow he, fun hready hu => ?_⟩, hreleased,
    fun h hh hgone => ?_⟩
  · refine hpending hI.2 hp _ (hp.visited id d e hrow he ?_) hu
    unfold recoveryOf
    rw [hready]
    rfl
  · by_contra hno
    rw [not_or, not_or] at hno
    exact hgone (hreleased h (hp.queued hh)
      ⟨Option.isSome_iff_ne_none.mpr hno.1, hno.2.1, hno.2.2⟩)

end Collection

/-! ## 7. The released post of the small run -/

section Sample

attribute [local instance] Primitives.reference

def sampleCollection : List Op := [.rebuildAccounting 100, .rebuildNominations 100]

/-- A released payload is collected. -/
theorem collector_spares_wanted_sampleQuotaRun :
    ∃ db' cursor, collectQuotaPayloadStepTx (rebooked sampleEnv sampleQuotaRun sampleCollection) none
        100 = .ok (db', cursor, 2) ∧
      SafeCollection sampleEnv (rebooked sampleEnv sampleQuotaRun sampleCollection) db' 100 2 := by
  have hok : ∃ db' cursor, collectQuotaPayloadStepTx
      (rebooked sampleEnv sampleQuotaRun sampleCollection) none 100 = .ok (db', cursor, 2) := by
    have hbytes : (collectQuotaPayloadStepTx (rebooked sampleEnv sampleQuotaRun sampleCollection)
        none 100).toOption.map (fun r => r.2.2) = some 2 := by decide +kernel
    cases h : collectQuotaPayloadStepTx (rebooked sampleEnv sampleQuotaRun sampleCollection) none 100
      with
    | error e =>
      rw [h] at hbytes
      cases hbytes
    | ok r =>
      rw [h] at hbytes
      obtain ⟨db', cursor, n⟩ := r
      obtain rfl : n = 2 := by simpa [Except.toOption] using hbytes
      exact ⟨db', cursor, rfl⟩
  obtain ⟨db', cursor, hok⟩ := hok
  exact ⟨db', cursor, hok, collector_spares_wanted sampleEnv
    (collisionFree_envelopesOf (by decide)) sampleQuotaRun sampleCollection
    (deliveredFrom_envelopesOf _) none cursor 100 2 hok⟩

/-- Its hash is in the queue, unless somebody wants it. -/
theorem nominations_complete_sampleQuotaRun :
    let db := rebooked sampleEnv sampleQuotaRun sampleCollection
    let id := samplePayload.event.id
    db.accounting.quotaRecovery = some .ready ∧ db.quotaPruned.get id = some ⟨.authorQuota, 20⟩ ∧
      db.ev.events.get id = some samplePost ∧
      (Unwanted sampleEnv db samplePost.contentHash →
        samplePost.contentHash ∈ db.accounting.quotaGc) := by
  have hready : (rebooked sampleEnv sampleQuotaRun sampleCollection).accounting.quotaRecovery =
      some .ready := by decide +kernel
  have hrow : (rebooked sampleEnv sampleQuotaRun sampleCollection).quotaPruned.get
      samplePayload.event.id = some ⟨.authorQuota, 20⟩ := by decide +kernel
  have hstored : (rebooked sampleEnv sampleQuotaRun sampleCollection).ev.events.get
      samplePayload.event.id = some samplePost := by decide +kernel
  have hcomplete := nominations_complete sampleEnv (collisionFree_envelopesOf (by decide))
    sampleQuotaRun sampleCollection sampleLaterRun (deliveredFrom_envelopesOf _)
  exact ⟨hready, hrow, hstored, (hcomplete.1 _ _ _ hrow hstored).2 hready⟩

end Sample

end Rostra.Db
