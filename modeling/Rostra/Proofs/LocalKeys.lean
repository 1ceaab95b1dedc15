/-
# Local keys follow their deadlines

The key table of `dm_maintain_local`, over runs in which the clock jumps both ways.

* `DevicesMoved`: what the database itself does to the installation.  It retires it, when an announcement of
  the own account says so, and nothing else.
* `KeyringStep`: what one transaction does to the keys.
* `Keyring` is the invariant: windows of one length, which do not overlap within an installation.
* A key that was drawn once is not drawn again, so a row that is gone stays gone (`epochs_kept`).

A window is the time in which senders may use a key, and each is followed by a grace period for messages that are
under way. The clock is whatever the caller reads, so a window can begin in the past of a transaction that came
before; the invariant does not mention a present time at all, only the starts and deadlines of the rows against
each other.
-/
import Rostra.Proofs.Permits
import Rostra.Proofs.Trial

namespace Rostra.Db

open Rostra Outcome

section Keys

variable [Primitives]

/-! ## 1. What the database does to the installation

An announcement of the own account can arrive through the network as any event does, from another device of the
account. All it can do here is to retire the installation, for good. -/

/-- The own account's row of a device says that it is retired. -/
def rowRetired (env : Env) (p : Projections) (device : Bytes) : Bool :=
  (p.idsDmDevices.get (env.selfId, device)).any (·.retired)

/-- A retirement of the current installation has been taken up. -/
def RetirementSeen (env : Env) (p : Projections) : Prop :=
  ∀ i, p.idsDmInstallation = some i → rowRetired env p i.deviceId = true → i.retired = true

/-- **What announcements may do**: the installation stays, and a retirement is final. Announcements of other
accounts and devices are covered as well. -/
structure DevicesMoved (env : Env) (p p' : Projections) : Prop where
  device : p'.idsDmInstallation.map (·.deviceId) = p.idsDmInstallation.map (·.deviceId)
  retired : p.idsDmInstallation.any (·.retired) = true → p'.idsDmInstallation.any (·.retired) = true
  seen : RetirementSeen env p → RetirementSeen env p'

variable {env : Env} {p p' p'' : Projections}

omit [Primitives] in
theorem DevicesMoved.of_eq (h : devicePart p' = devicePart p) : DevicesMoved env p p' := by
  obtain ⟨hdevices, hinstallation⟩ := Prod.mk.inj h
  refine ⟨by rw [hinstallation], by rw [hinstallation]; exact id, fun hseen i hi hrow => ?_⟩
  rw [hinstallation] at hi
  refine hseen i hi ?_
  rwa [rowRetired, hdevices] at hrow

omit [Primitives] in
theorem DevicesMoved.refl (p : Projections) : DevicesMoved env p p := .of_eq rfl

omit [Primitives] in
theorem DevicesMoved.trans (h : DevicesMoved env p p') (h' : DevicesMoved env p' p'') : DevicesMoved env p p'' :=
  ⟨h'.device.trans h.device, fun hr => h'.retired (h.retired hr), fun hs => h'.seen (h.seen hs)⟩

omit [Primitives] in
/-- **An announcement**, of whatever account and device it is. -/
theorem dmApplyAnnouncementTx_moved (p : Projections) (author : RostraId) (a : Dm.Announcement)
    (timestamp : Timestamp) (eventId : ShortEventId) :
    DevicesMoved env p (dmApplyAnnouncementTx env p author a timestamp eventId) := by
  generalize hstate : ((p.idsDmDevices.get (author, a.deviceId)).getD {}).apply a timestamp eventId = state
  have hdevices : (dmApplyAnnouncementTx env p author a timestamp eventId).idsDmDevices =
      p.idsDmDevices.insert (author, a.deviceId) state := by
    rw [← hstate]
    rfl
  have hinstallation : (dmApplyAnnouncementTx env p author a timestamp eventId).idsDmInstallation =
      p.idsDmInstallation.map fun i =>
        if author = env.selfId ∧ state.retired ∧ i.deviceId = a.deviceId then { i with retired := true } else i := by
    rw [← hstate]
    rfl
  cases hold : p.idsDmInstallation with
  | none =>
    rw [hold] at hinstallation
    refine ⟨by rw [hinstallation, hold]; rfl, fun hr => ?_, fun _ i hi => ?_⟩
    · rw [hold] at hr
      cases hr
    · rw [hinstallation] at hi
      cases hi
  | some i =>
    rw [hold, Option.map_some] at hinstallation
    refine ⟨?_, fun hr => ?_, fun hseen j hj hrow => ?_⟩
    · rw [hinstallation, hold]
      split
      · rfl
      · rfl
    · rw [hold] at hr
      rw [hinstallation]
      split
      · rfl
      · exact hr
    · rw [hinstallation] at hj
      obtain rfl := Option.some.inj hj
      split
      · rfl
      · next hother =>
        rw [if_neg hother, rowRetired, hdevices] at hrow
        refine hseen i hold ?_
        rw [rowRetired]
        by_cases hkey : (env.selfId, i.deviceId) = (author, a.deviceId)
        · obtain ⟨hauthor, hdevice⟩ := Prod.mk.inj hkey
          rw [hkey, Table.get_insert_self] at hrow
          exact absurd ⟨hauthor.symm, hrow, hdevice⟩ hother
        · rwa [Table.get_insert_of_ne _ _ hkey] at hrow

theorem processKindTx_moved (ctx : TxCtx) (p : Projections) (c : EventContent) (now : Timestamp) :
    Ensures (processKindTx env ctx p c now) (fun r => DevicesMoved env p r.1) (fun _ => True) := by
  unfold processKindTx
  dsimp only
  split
  · unfold processDmTx
    dsimp only
    split
    · trivial
    refine (ensures_true _).bind fun bytes _ => ?_
    split
    · exact (ensures_true _).bind fun a _ => dmApplyAnnouncementTx_moved ..
    split
    · exact .of_eq rfl
    · trivial
  split
  · refine (ensures_true _).bind fun f _ => ensures_pure.mpr (.of_eq ?_)
    dsimp only
    split
    · obtain ⟨_, _, _, _, heq⟩ := insertUnfollowTx_frame p c.event.event.author
        (toLex (c.event.event.timestamp, c.event.id)) f.followee
      rw [heq]
      rfl
    · obtain ⟨_, _, _, heq⟩ := insertFollowTx_frame p c.event.event.author
        (toLex (c.event.event.timestamp, c.event.id)) f
      rw [heq]
      rfl
  split
  · exact (ensures_true _).bind fun addr _ => .of_eq rfl
  split
  · exact (ensures_true _).bind fun content _ => .of_eq rfl
  split
  · refine (ensures_true _).bind fun post _ => ?_
    split
    · exact .refl p
    · exact (liftDb_ensures ((applySocialPostTx_outside _ _ _ _ _ _ _).mono (fun _ h => h) fun _ _ => trivial)).bind
        fun p' hp' => .of_eq (devicePart_of_outside hp')
  split
  · refine (ensures_true _).bind fun content _ => ?_
    split
    · exact .refl p
    · refine (liftDb_ensures ((processSocialVoteTx_frame _ _ _ _).mono (fun _ h => h) fun _ _ => trivial)).bind
        fun p' ⟨sums, hp'⟩ => .of_eq ?_
      rw [hp']
      rfl
  split
  · exact (ensures_true _).bind fun _ _ => (ensures_true _).bind fun _ _ => .of_eq rfl
  · exact .refl p

theorem processEventContentInsertedTx_moved (ctx : TxCtx) (p : Projections) (c : EventContent) (now : Timestamp) :
    Ensures (processEventContentInsertedTx env ctx p c now) (DevicesMoved env p) (fun _ => True) := by
  unfold processEventContentInsertedTx
  refine (processKindTx_moved ctx p c now).bind fun ⟨p', record⟩ hr => ?_
  cases record with
  | none => exact hr
  | some record =>
    refine hr.trans (.of_eq ?_)
    show devicePart (insertSingletonTx p' c.event record) = _
    unfold insertSingletonTx
    dsimp only
    split
    · rfl
    · rfl

theorem processEventTx_moved (db : Database) (v : VerifiedEvent) (now : Timestamp) (source : EventReceivedSource) :
    Ensures (processEventTx env {} db v now source) (fun r => DevicesMoved env db.proj r.1.proj)
      (fun _ => True) :=
  (processEventTx_effect env {} db v now source).mono
    (fun _ h => .of_eq (devicePart_of_outside h.outside)) fun _ _ => trivial

theorem processEventContentTx_moved (db : Database) (c : VerifiedEventContent) (now : Timestamp)
    (ledger : AdmissionState) (buffer : Option PayloadBuffer) :
    Ensures (processEventContentTx env {} db c now ledger buffer)
      (fun db' => DevicesMoved env db.proj db'.proj) (fun _ => True) :=
  processEventContentTx_moves (fun _ _ h => .of_eq h) env {} db c now ledger buffer
    (processEventContentInsertedTx_moved {} db.proj c.toEventContent now)

theorem processAdmittedContentTx_moved (db : Database) (c : VerifiedEventContent) (now : Timestamp)
    (ledger : AdmissionState) (buffer : Option PayloadBuffer) :
    Ensures (processAdmittedContentTx env {} db c now ledger buffer)
      (fun r => DevicesMoved env db.proj r.1.proj) (fun _ => True) := by
  unfold processAdmittedContentTx
  dsimp only
  split
  · next db₁ hok =>
    have hdb := (processEventContentTx_moved db c now ledger buffer).of_ok hok
    split
    · exact hdb
    split
    · exact hdb
    · exact hdb
  · exact .refl _
  · trivial

theorem tryMaterializeStoredPayload_moved (db : Database) (id : ShortEventId) (now : Timestamp)
    (ledger : AdmissionState) :
    Ensures (tryMaterializeStoredPayload env {} db id now ledger)
      (fun r => DevicesMoved env db.proj r.1.proj) (fun _ => True) := by
  unfold tryMaterializeStoredPayload
  split
  · exact .refl _
  split
  · exact .refl _
  dsimp only
  split
  · exact .refl _
  · trivial
  split
  · exact .refl _
  split
  · exact .refl _
  split
  · trivial
  split
  · trivial
  · exact processAdmittedContentTx_moved db _ now _ _

omit [Primitives] in
theorem Reranked.moved (h : Reranked p p') : DevicesMoved env p p' := by
  rcases h with rfl | ⟨postId, now, rfl⟩
  · exact .refl _
  · refine .of_eq ?_
    rw [recalculateNewsPostScoreTx_frame]
    rfl

omit [Primitives] in
theorem collectGarbageLoop_moved : ∀ (limit : ℕ) (db : Database) (removed : ℕ),
    Ensures (collectGarbageLoop limit db removed) (fun r => DevicesMoved env db.proj r.1.proj) (fun _ => True)
  | 0, _, _ => .refl _
  | limit + 1, db, removed => by
    unfold collectGarbageLoop
    have hstep : Ensures (collectQuotaPayloadStepTx db none u64Max)
        (fun r => DevicesMoved env db.proj r.1.proj) (fun _ => True) :=
      ensures_of_ok fun r hr => (collectQuotaPayloadStepTx_aside hr).proj.moved
    refine hstep.bind fun r hr => ?_
    split
    · exact hr
    · refine (ensures_true _).bind fun n _ => ?_
      exact (collectGarbageLoop_moved limit _ n).mono (fun _ h => hr.trans h) fun _ h => h

theorem pruneQuotaPayloadTx_moved (db : Database) (request : QuotaPruneRequest) :
    Ensures (pruneQuotaPayloadTx env db request) (fun r => DevicesMoved env db.proj r.1.proj) (fun _ => True) := by
  unfold pruneQuotaPayloadTx
  refine (ensures_true _).bind fun _ _ => ?_
  split
  · exact .refl _
  split
  · exact .refl _
  split
  · exact .refl _
  split
  · split
    · exact .refl _
    dsimp only
    split
    · trivial
    refine (ensures_true _).bind fun before _ => ?_
    refine ((ensures_self _).mono (fun _ h => h) fun _ _ => trivial).bind fun p hp => ?_
    refine (ensures_true _).bind fun ⟨t, _⟩ _ => ?_
    refine ((payloadAfterTx_ensures env _ before).mono (fun _ h => h) fun _ _ => trivial).bind
      fun db₁ ⟨a, x, hdb⟩ => ?_
    subst hdb
    exact .of_eq (devicePart_of_outside (dematerializeTx_outside hp))
  · exact .refl _

/-- Maintenance of the database leaves the devices alone. -/
theorem step_maintenance_moved (db : Database) (o : Op) (h : o.isMaintenance = true) :
    Ensures (step env db o) (fun db' => DevicesMoved env db.proj db'.proj) (fun _ => True) := by
  cases o with
  | ingest ds => cases h
  | ingestAdmitted c now ledger buffer => cases h
  | materializeStored id now ledger => cases h
  | pruneQuota request => exact (pruneQuotaPayloadTx_moved db request).bind fun r hr => hr
  | collectStep after maxBytes =>
    have hstep : Ensures (collectQuotaPayloadStepTx db after maxBytes)
        (fun r => DevicesMoved env db.proj r.1.proj) (fun _ => True) :=
      ensures_of_ok fun r hr => (collectQuotaPayloadStepTx_aside hr).proj.moved
    exact hstep.bind fun r hr => hr
  | collectGarbage limit =>
    simp only [step, collectQuotaPayloadGarbage]
    split
    · trivial
    refine (ensures_true _).bind fun _ _ => ?_
    exact (collectGarbageLoop_moved limit db 0).bind fun r hr => hr
  | rebuildAccounting limit =>
    exact (rebuildPayloadAccounting_eq env db limit).mono
      (fun _ h => (Aside.of_accounting h).proj.moved) fun _ h => h
  | rebuildNominations limit =>
    exact (rebuildQuotaPayloadNominations_eq env db limit).mono
      (fun _ h => (Aside.of_accounting h).proj.moved) fun _ h => h
  | configureRetention policy => exact .refl _
  | rebuildRetention limit =>
    exact (rebuildRetentionIndex_eq env db limit).mono
      (fun _ h => (Aside.of_retention h).proj.moved) fun _ h => h
  | promoteRetention clock limit =>
    exact (promoteRetentionGrace_eq db clock limit).mono
      (fun _ h => (Aside.of_retention h).proj.moved) fun _ h => h
  | deferFetch id observed retryAt => exact .refl _
  | recordFailedFetch id observed attemptedAt nextAttemptAt => exact .refl _
  | peekMissing => exact .refl _
  | recalculateNews postId now => exact Reranked.moved (.inr ⟨postId, now, rfl⟩)

/-- One part of a transaction. -/
theorem runPart_moved (db : Database) {o : Op} {part : Part} (hpart : part ∈ o.parts) :
    Ensures (runPart env db part) (fun db' => DevicesMoved env db.proj db'.proj) (fun _ => True) := by
  rcases Op.parts_cases hpart with ⟨v, now, source, rfl⟩ | ⟨c, now, ledger, rfl⟩ |
    ⟨c, now, ledger, buffer, rfl⟩ | ⟨id, now, ledger, rfl⟩ | ⟨o', ho, rfl, -⟩
  · exact (processEventTx_moved db v now source).bind fun r hr => hr
  · exact processEventContentTx_moved db c now ledger none
  · exact (processAdmittedContentTx_moved db c now ledger buffer).bind fun r hr => hr
  · exact (tryMaterializeStoredPayload_moved db id now ledger).bind fun r hr => hr
  · exact step_maintenance_moved db o' ho

/-- **A transaction of the database** is a sequence of effects, of which only a processed payload applies an
announcement. -/
theorem step_moved (db : Database) (o : Op) :
    Ensures (step env db o) (fun db' => DevicesMoved env db.proj db'.proj) (fun _ => True) := by
  rw [step_parts]
  exact Ensures.foldlM (J := fun db' => DevicesMoved env db.proj db'.proj) o.parts db
    (fun part hpart db' hdb' => (runPart_moved db' hpart).mono (fun _ h => hdb'.trans h) fun _ h => h) (.refl _)

/-! ## 2. Expiry and the newest epoch

Both are scans over a table that is ordered by installation and key. The newest epoch of an installation is found
in the range of its rows, whose ends are spelled out as byte strings. -/

def Mailbox.withEpochs (s : Mailbox) (epochs : Table EpochKey LocalEpoch) : Mailbox := { s with epochs := epochs }

omit [Primitives] in
@[simp] theorem Mailbox.withEpochs_epochs (s : Mailbox) (epochs : Table EpochKey LocalEpoch) :
    (s.withEpochs epochs).epochs = epochs := rfl

/-- The key table after the expired keys have gone. -/
def unexpired (epochs : Table EpochKey LocalEpoch) (now : ℕ) : Table EpochKey LocalEpoch :=
  (expiredEpochs epochs now).foldl Table.remove epochs

omit [Primitives] in
theorem removeAll_get (keys : List EpochKey) (epochs : Table EpochKey LocalEpoch) (key : EpochKey) :
    (keys.foldl Table.remove epochs).get key = if key ∈ keys then none else epochs.get key := by
  induction keys generalizing epochs with
  | nil => simp
  | cons k keys ih =>
    rw [List.foldl_cons, ih, Table.get_remove]
    by_cases hk : key = k
    · simp [hk]
    · simp [hk]

omit [Primitives] in
theorem mem_expiredEpochs {epochs : Table EpochKey LocalEpoch} {now : ℕ} {key : EpochKey} :
    key ∈ expiredEpochs epochs now ↔ ∃ e, epochs.get key = some e ∧ e.publicPart.decryptUntil ≤ now := by
  rw [expiredEpochs, List.mem_map]
  constructor
  · rintro ⟨row, hrow, rfl⟩
    obtain ⟨hrow, hdue⟩ := List.mem_filter.mp hrow
    exact ⟨row.2, (mem_epochsBehind.mp hrow).1, of_decide_eq_true hdue⟩
  · rintro ⟨e, he, hdue⟩
    exact ⟨(key, e), List.mem_filter.mpr ⟨mem_epochsBehind.mpr ⟨he, rfl⟩, decide_eq_true hdue⟩, rfl⟩

omit [Primitives] in
/-- **A key goes exactly when its deadline is past**, at the clock value of the call. -/
theorem unexpired_get (epochs : Table EpochKey LocalEpoch) (now : ℕ) (key : EpochKey) :
    (unexpired epochs now).get key =
      (epochs.get key).filter fun e => decide (now < e.publicPart.decryptUntil) := by
  rw [unexpired, removeAll_get]
  cases he : epochs.get key with
  | none => simp
  | some e =>
    by_cases hdue : e.publicPart.decryptUntil ≤ now
    · rw [if_pos (mem_expiredEpochs.mpr ⟨e, he, hdue⟩), Option.filter_some, if_neg]
      simpa using hdue
    · rw [if_neg, Option.filter_some, if_pos]
      · simpa using hdue
      · intro hmem
        obtain ⟨e', he', hdue'⟩ := mem_expiredEpochs.mp hmem
        rw [he] at he'
        cases he'
        exact hdue hdue'

omit [Primitives] in
theorem unexpired_some {epochs : Table EpochKey LocalEpoch} {now : ℕ} {key : EpochKey} {e : LocalEpoch}
    (h : (unexpired epochs now).get key = some e) : epochs.get key = some e := by
  rw [unexpired_get] at h
  exact (Option.filter_eq_some_iff.mp h).1

omit [Primitives] in
theorem dmExpireKeysTx_eq {s s' : Mailbox} {now : ℕ} (h : dmExpireKeysTx s now = .ok s') :
    s' = s.withEpochs (unexpired s.epochs now) := by
  unfold dmExpireKeysTx at h
  split at h
  · cases h
  · exact (Except.ok.inj h).symm

/-- The order in which an epoch is the newest. -/
def startOf (e : Dm.EpochPublic) : ℕ ×ₗ Bytes := toLex (e.sendFrom, e.publicKey)

omit [Primitives] in
theorem bytes_cons_le_cons {a b : UInt8} {l l' : Bytes} (h : a ≤ b) (hl : l ≤ l') : a :: l ≤ b :: l' := by
  rcases lt_or_eq_of_le h with hlt | rfl
  · exact le_of_lt (List.Lex.rel hlt)
  · exact List.cons_le_cons a hl

omit [Primitives] in
/-- The bounds of a range of byte strings of one length. -/
theorem bytes_between (bytes : Bytes) :
    List.replicate bytes.length 0 ≤ bytes ∧ bytes ≤ List.replicate bytes.length 255 := by
  induction bytes with
  | nil => exact ⟨le_rfl, le_rfl⟩
  | cons b bytes ih =>
    have hlow : (0 : UInt8) ≤ b := UInt8.le_iff_toNat_le.mpr (Nat.zero_le _)
    have hhigh : b ≤ (255 : UInt8) := UInt8.le_iff_toNat_le.mpr (Nat.le_of_lt_succ b.toNat_lt)
    rw [List.length_cons, List.replicate_succ, List.replicate_succ]
    exact ⟨bytes_cons_le_cons hlow ih.1, bytes_cons_le_cons hhigh ih.2⟩

/-- The rows that the range of an installation covers. -/
def rowsOf (epochs : Table EpochKey LocalEpoch) (device : Bytes) : List (EpochKey × LocalEpoch) :=
  (epochsBehind epochs none).filter fun row =>
    decide (toLex (device, List.replicate 32 0) ≤ row.1) && decide (row.1 ≤ toLex (device, List.replicate 32 255))

omit [Primitives] in
/-- They are its rows, as keys have 32 bytes. -/
theorem mem_rowsOf {epochs : Table EpochKey LocalEpoch}
    (hwide : ∀ key e, epochs.get key = some e → (ofLex key).2.length = 32) {device : Bytes}
    {row : EpochKey × LocalEpoch} :
    row ∈ rowsOf epochs device ↔ epochs.get row.1 = some row.2 ∧ (ofLex row.1).1 = device := by
  rw [rowsOf, List.mem_filter, mem_epochsBehind, Bool.and_eq_true, decide_eq_true_eq, decide_eq_true_eq]
  constructor
  · rintro ⟨⟨hrow, -⟩, hfirst, hlast⟩
    refine ⟨hrow, le_antisymm ?_ ?_⟩
    · exact Prod.Lex.monotone_fst _ _ hlast
    · exact Prod.Lex.monotone_fst _ _ hfirst
  · rintro ⟨hrow, rfl⟩
    obtain ⟨hzeros, hones⟩ := bytes_between (ofLex row.1).2
    rw [hwide row.1 row.2 hrow] at hzeros hones
    exact ⟨⟨hrow, rfl⟩, Prod.Lex.le_iff.mpr (.inr ⟨rfl, hzeros⟩), Prod.Lex.le_iff.mpr (.inr ⟨rfl, hones⟩)⟩

omit [Primitives] in
/-- The loop over them looks for the greatest start. -/
theorem newestEpoch_eq (epochs : Table EpochKey LocalEpoch) (device : Bytes) :
    newestEpoch epochs device = ((rowsOf epochs device).map (·.2.publicPart)).argmax startOf := by
  unfold newestEpoch List.argmax
  rw [List.foldl_map]
  refine congrArg (fun f => (rowsOf epochs device).foldl f none) (funext₂ fun newest row => ?_)
  cases newest with
  | none => rfl
  | some old =>
    exact if_congr (by rw [Option.all_some, decide_eq_true_eq]; rfl) rfl rfl

omit [Primitives] in
/-- **The newest epoch** is retained, and no other one starts later. The hypothesis is about the width of keys,
since the range of the scan ends at 32 bytes of `255`. -/
theorem newestEpoch_some {epochs : Table EpochKey LocalEpoch}
    (hwide : ∀ key e, epochs.get key = some e → (ofLex key).2.length = 32) {device : Bytes}
    {epoch : Dm.EpochPublic} (h : newestEpoch epochs device = some epoch) :
    (∃ key e, epochs.get (toLex (device, key)) = some e ∧ e.publicPart = epoch) ∧
      ∀ key e, epochs.get (toLex (device, key)) = some e → startOf e.publicPart ≤ startOf epoch := by
  rw [newestEpoch_eq] at h
  refine ⟨?_, fun key e he => ?_⟩
  · obtain ⟨row, hrow, hpublic⟩ := List.mem_map.mp (List.argmax_mem h)
    obtain ⟨hget, rfl⟩ := (mem_rowsOf hwide).mp hrow
    exact ⟨(ofLex row.1).2, row.2, hget, hpublic⟩
  · refine List.le_of_mem_argmax (List.mem_map_of_mem (f := fun row : EpochKey × LocalEpoch => row.2.publicPart)
      (a := (toLex (device, key), e)) ?_) h
    exact (mem_rowsOf hwide).mpr ⟨he, rfl⟩

omit [Primitives] in
theorem newestEpoch_none {epochs : Table EpochKey LocalEpoch}
    (hwide : ∀ key e, epochs.get key = some e → (ofLex key).2.length = 32) {device : Bytes}
    (h : newestEpoch epochs device = none) (key : Bytes) : epochs.get (toLex (device, key)) = none := by
  rw [newestEpoch_eq, List.argmax_eq_none, List.map_eq_nil_iff] at h
  cases he : epochs.get (toLex (device, key)) with
  | none => rfl
  | some e =>
    have hrow : (toLex (device, key), e) ∈ rowsOf epochs device := (mem_rowsOf hwide).mpr ⟨he, rfl⟩
    rw [h] at hrow
    cases hrow

/-! ## 3. One transaction

Maintenance expires keys, installs a device if there is none or the one that is there was retired, and draws a key
when the newest window is over. It returns the announcement that is to be published. -/

/-- The deadlines of an epoch are those of its start. -/
structure Scheduled (e : LocalEpoch) : Prop where
  window : e.publicPart.sendUntil = e.publicPart.sendFrom + DM_KEY_SEND_WINDOW
  grace : e.publicPart.decryptUntil = e.publicPart.sendUntil + DM_KEY_RECEIVE_GRACE

theorem generate_scheduled {now : ℕ} {publicKey : Bytes} {secret : Text} {e : LocalEpoch}
    (h : LocalEpoch.generate now publicKey secret = .ok e) :
    e.publicPart.publicKey = publicKey ∧ e.publicPart.sendFrom = now ∧ Scheduled e := by
  unfold LocalEpoch.generate at h
  dsimp only at h
  split at h
  · cases h
  · cases h
    exact ⟨rfl, rfl, rfl, rfl⟩

def Mailbox.installed (s : Mailbox) (i : Installation) : Mailbox :=
  { s with db := { s.db with proj := { s.db.proj with idsDmInstallation := some i } } }

omit [Primitives] in
@[simp] theorem Mailbox.installed_epochs (s : Mailbox) (i : Installation) : (s.installed i).epochs = s.epochs := rfl

/-- The installation that maintenance finds or draws. -/
def Mailbox.installation (s : Mailbox) (drawn : Drawn) : Installation :=
  s.db.proj.idsDmInstallation.getD ⟨drawn.deviceId, false⟩

/-- **What maintenance does**, with the announcement it returns: the installation is retired and says so, or its
newest window is still open, or a key is drawn and announced. -/
inductive MaintenanceEffect (s : Mailbox) (now : ℕ) (drawn : Drawn) : Mailbox → Dm.Announcement → Prop
  | retired (hretired : (s.installation drawn).retired = true) :
      MaintenanceEffect s now drawn
        ((s.withEpochs (unexpired s.epochs now)).installed (s.installation drawn))
        ⟨(s.installation drawn).deviceId, none⟩
  | current {epoch : Dm.EpochPublic} (hlive : (s.installation drawn).retired = false)
      (hnewest : newestEpoch (unexpired s.epochs now) (s.installation drawn).deviceId = some epoch)
      (hnow : now < epoch.sendUntil) :
      MaintenanceEffect s now drawn
        ((s.withEpochs (unexpired s.epochs now)).installed (s.installation drawn))
        ⟨(s.installation drawn).deviceId, some epoch⟩
  | generated {e : LocalEpoch} (hlive : (s.installation drawn).retired = false)
      (hpast : ∀ epoch, newestEpoch (unexpired s.epochs now) (s.installation drawn).deviceId = some epoch →
        epoch.sendUntil ≤ now)
      (he : LocalEpoch.generate now drawn.publicKey drawn.secret = .ok e) :
      MaintenanceEffect s now drawn
        ((s.withEpochs ((unexpired s.epochs now).insert
          (toLex ((s.installation drawn).deviceId, drawn.publicKey)) e)).installed (s.installation drawn))
        ⟨(s.installation drawn).deviceId, some e.publicPart⟩

theorem dmMaintainLocal_effect {s s' : Mailbox} {now : ℕ} {drawn : Drawn} {a : Dm.Announcement}
    (h : dmMaintainLocal s now drawn = .ok (s', a)) : MaintenanceEffect s now drawn s' a := by
  obtain ⟨s₀, hexpire, h⟩ := bind_eq_ok.mp h
  obtain rfl := dmExpireKeysTx_eq hexpire
  dsimp only at h
  split at h
  · next hretired =>
    cases h
    exact .retired hretired
  next hlive =>
  rw [Bool.not_eq_true] at hlive
  split at h
  · next epoch hcurrent =>
    obtain ⟨hnewest, hnow⟩ := Option.filter_eq_some_iff.mp hcurrent
    cases h
    exact .current hlive hnewest (of_decide_eq_true hnow)
  · next hnone =>
    obtain ⟨e, he, h⟩ := bind_eq_ok.mp h
    cases h
    rw [(generate_scheduled he).1]
    refine .generated hlive (fun epoch hnewest => ?_) he
    have hnewest : newestEpoch (unexpired s.epochs now) (s.installation drawn).deviceId = some epoch := hnewest
    rw [Option.filter_eq_none_iff] at hnone
    simpa using hnone epoch hnewest

/-- **What a transaction does to the keys and the installation.** All transactions that have nothing to do with
keys are one case. -/
inductive KeyringStep (env : Env) (s : Mailbox) : MailOp → Mailbox → Prop
  | maintained {now : ℕ} {drawn : Drawn} {s' : Mailbox} {a : Dm.Announcement}
      (h : MaintenanceEffect s now drawn s' a) : KeyringStep env s (.maintain now drawn) s'
  | expired {now : ℕ} : KeyringStep env s (.expireKeys now) (s.withEpochs (unexpired s.epochs now))
  | enrolled {deviceId : Bytes} : KeyringStep env s (.reenroll deviceId) (s.installed ⟨deviceId, false⟩)
  | aside {o : MailOp} {s' : Mailbox} (hepochs : s'.epochs = s.epochs)
      (hmoved : DevicesMoved env s.db.proj s'.db.proj) : KeyringStep env s o s'

/-- A trial touches neither. -/
theorem TrialEffect.keyring {crypto : Crypto} {s s' : Mailbox} {now : ℕ} (h : TrialEffect crypto env s now s') :
    s'.epochs = s.epochs ∧ devicePart s'.db.proj = devicePart s.db.proj := by
  cases h with
  | idle => exact ⟨rfl, rfl⟩
  | discarded hsel => exact ⟨rfl, rfl⟩
  | attempted hsel hok h =>
    cases h with
    | opened hbody hdm => exact ⟨rfl, rfl⟩
    | exhausted hfail hend => exact ⟨rfl, rfl⟩
    | advanced hfail => exact ⟨rfl, rfl⟩

theorem mailStep_keyring {crypto : Crypto} {s s' : Mailbox} {o : MailOp} (h : mailStep crypto env s o = .ok s') :
    KeyringStep env s o s' := by
  cases o with
  | db op =>
    obtain ⟨db, hdb, h⟩ := bind_eq_ok.mp h
    cases h
    cases hstep : step env s.db op with
    | error e =>
      rw [hstep] at hdb
      cases hdb
    | ok db' =>
      rw [hstep] at hdb
      cases hdb
      exact .aside rfl ((step_moved s.db op).of_ok hstep)
  | history op =>
    obtain ⟨dm, -, h⟩ := bind_eq_ok.mp h
    cases h
    exact .aside rfl (.refl _)
  | maintain now drawn =>
    obtain ⟨⟨s₁, a⟩, h, hs₁⟩ := bind_eq_ok.mp h
    cases hs₁
    exact .maintained (dmMaintainLocal_effect h)
  | reenroll deviceId =>
    obtain ⟨⟨s₁, device⟩, h, hs₁⟩ := bind_eq_ok.mp h
    cases hs₁
    unfold dmReenroll at h
    split at h
    · cases h
    split at h
    · cases h
      exact .aside rfl (.refl _)
    · cases h
      exact .enrolled
  | expireKeys now =>
    obtain rfl := dmExpireKeysTx_eq h
    exact .expired
  | trial now =>
    obtain ⟨hepochs, hdevices⟩ := (mailStep_trial h).keyring
    exact .aside hepochs (.of_eq hdevices)
  | stash pending =>
    cases h
    exact .aside rfl (.refl _)

/-! ## 4. The invariant

Within an installation the deadlines increase with the start (`Keyring.until_le`), so the newest epoch is the last
one to end; a key that is drawn then starts after all others. -/

/-- The public keys that an operation is given as drawn. -/
def MailOp.keysDrawn : MailOp → List Bytes
  | .maintain _ drawn => [drawn.publicKey]
  | _ => []

def MailOp.devicesDrawn : MailOp → List Bytes
  | .maintain _ drawn => [drawn.deviceId]
  | .reenroll deviceId => [deviceId]
  | _ => []

/-- Two windows do not overlap. -/
def WindowsDisjoint (e e' : Dm.EpochPublic) : Prop := e.sendUntil ≤ e'.sendFrom ∨ e'.sendUntil ≤ e.sendFrom

/-- **The invariant of the key table.** Deadlines are those of the start, the windows of one installation are
disjoint, and the retirement of the installation is known to the device table. -/
structure Keyring (env : Env) (s : Mailbox) : Prop where
  scheduled : ∀ key e, s.epochs.get key = some e →
    Scheduled e ∧ e.publicPart.publicKey = (ofLex key).2 ∧ (ofLex key).2.length = 32
  spaced : ∀ device k k' e e', k ≠ k' → s.epochs.get (toLex (device, k)) = some e →
    s.epochs.get (toLex (device, k')) = some e' → WindowsDisjoint e.publicPart e'.publicPart
  seen : RetirementSeen env s.db.proj

section Invariant

variable {s s' : Mailbox} {now : ℕ} {drawn : Drawn}

omit [Primitives] in
theorem Keyring.expire (h : Keyring env s) (now : ℕ) : Keyring env (s.withEpochs (unexpired s.epochs now)) where
  scheduled key e he := h.scheduled key e (unexpired_some he)
  spaced device k k' e e' hne he he' := h.spaced device k k' e e' hne (unexpired_some he) (unexpired_some he')
  seen := h.seen

omit [Primitives] in
theorem Keyring.wide (h : Keyring env s) (key : EpochKey) (e : LocalEpoch) (he : s.epochs.get key = some e) :
    (ofLex key).2.length = 32 :=
  (h.scheduled key e he).2.2

omit [Primitives] in
/-- An installation that is not retired, or whose retirement is taken up. -/
theorem Keyring.install (h : Keyring env s) {i : Installation}
    (hi : rowRetired env s.db.proj i.deviceId = true → i.retired = true) : Keyring env (s.installed i) where
  scheduled := h.scheduled
  spaced := h.spaced
  seen j hj hrow := by
    obtain rfl := Option.some.inj hj
    exact hi hrow

omit [Primitives] in
theorem Keyring.installation_seen (h : Keyring env s) (hfresh : rowRetired env s.db.proj drawn.deviceId = false) :
    rowRetired env s.db.proj (s.installation drawn).deviceId = true → (s.installation drawn).retired = true := by
  unfold Mailbox.installation
  cases hi : s.db.proj.idsDmInstallation with
  | none =>
    intro hrow
    rw [Option.getD_none, hfresh] at hrow
    cases hrow
  | some i => exact h.seen i hi

omit [Primitives] in
/-- **The deadlines of a device increase with the start**, so the newest epoch is the last one to end. -/
theorem Keyring.until_le (h : Keyring env s) {device : Bytes} {epoch : Dm.EpochPublic}
    (hnewest : newestEpoch s.epochs device = some epoch) {key : Bytes} {e : LocalEpoch}
    (he : s.epochs.get (toLex (device, key)) = some e) : e.publicPart.sendUntil ≤ epoch.sendUntil := by
  obtain ⟨⟨key₀, e₀, he₀, rfl⟩, hmax⟩ := newestEpoch_some h.wide hnewest
  have hfrom : e.publicPart.sendFrom ≤ e₀.publicPart.sendFrom := Prod.Lex.monotone_fst _ _ (hmax key e he)
  calc e.publicPart.sendUntil
      _ = e.publicPart.sendFrom + DM_KEY_SEND_WINDOW := (h.scheduled _ e he).1.window
      _ ≤ e₀.publicPart.sendFrom + DM_KEY_SEND_WINDOW := Nat.add_le_add_right hfrom _
      _ = e₀.publicPart.sendUntil := (h.scheduled _ e₀ he₀).1.window.symm

omit [Primitives] in
/-- If the newest window is over, all are. -/
theorem Keyring.over (h : Keyring env s) {device : Bytes}
    (hpast : ∀ epoch, newestEpoch s.epochs device = some epoch → epoch.sendUntil ≤ now) {key : Bytes}
    {e : LocalEpoch} (he : s.epochs.get (toLex (device, key)) = some e) : e.publicPart.sendUntil ≤ now := by
  cases hnewest : newestEpoch s.epochs device with
  | none =>
    rw [newestEpoch_none h.wide hnewest] at he
    cases he
  | some epoch => exact (h.until_le hnewest he).trans (hpast epoch hnewest)

/-- **A new window begins after all others of its installation.** The code compares with the newest one only, and
that is enough because windows are disjoint. -/
theorem Keyring.generate (h : Keyring env s) {device publicKey : Bytes} {secret : Text} {e : LocalEpoch}
    (hpast : ∀ epoch, newestEpoch s.epochs device = some epoch → epoch.sendUntil ≤ now)
    (he : LocalEpoch.generate now publicKey secret = .ok e) (hwide : publicKey.length = 32) :
    Keyring env (s.withEpochs (s.epochs.insert (toLex (device, publicKey)) e)) := by
  obtain ⟨hkey, hfrom, hscheduled⟩ := generate_scheduled he
  have hself : ∀ {e'}, (s.epochs.insert (toLex (device, publicKey)) e).get (toLex (device, publicKey)) = some e' →
      e = e' :=
    fun h' => Option.some.inj ((Table.get_insert_self ..).symm.trans h')
  have hother : ∀ {device' k e'}, (toLex (device', k) : EpochKey) ≠ toLex (device, publicKey) →
      (s.epochs.insert (toLex (device, publicKey)) e).get (toLex (device', k)) = some e' →
      s.epochs.get (toLex (device', k)) = some e' := by
    intro device' k e' hne h'
    rwa [Table.get_insert_of_ne _ _ hne] at h'
  refine ⟨fun key e' he' => ?_, fun device' k k' e₁ e₂ hne h₁ h₂ => ?_, h.seen⟩
  · by_cases hk : key = toLex (device, publicKey)
    · subst hk
      obtain rfl := hself he'
      exact ⟨hscheduled, hkey, hwide⟩
    · exact h.scheduled key e' (hother hk he')
  · have hstart : ∀ {k e'}, s.epochs.get (toLex (device, k)) = some e' →
        e'.publicPart.sendUntil ≤ e.publicPart.sendFrom := by
      intro k e' hget
      rw [hfrom]
      exact h.over hpast hget
    have hne₂ : ∀ {k : Bytes}, k ≠ publicKey → (toLex (device, k) : EpochKey) ≠ toLex (device, publicKey) :=
      fun hk heq => hk (Prod.mk.inj (toLex_inj.mp heq)).2
    by_cases hnew₁ : (toLex (device', k) : EpochKey) = toLex (device, publicKey)
    · obtain ⟨rfl, rfl⟩ := Prod.mk.inj (toLex_inj.mp hnew₁)
      obtain rfl := hself h₁
      exact .inr (hstart (hother (hne₂ hne.symm) h₂))
    by_cases hnew₂ : (toLex (device', k') : EpochKey) = toLex (device, publicKey)
    · obtain ⟨rfl, rfl⟩ := Prod.mk.inj (toLex_inj.mp hnew₂)
      obtain rfl := hself h₂
      exact .inl (hstart (hother (hne₂ hne) h₁))
    · exact h.spaced device' k k' e₁ e₂ hne (hother hnew₁ h₁) (hother hnew₂ h₂)

/-- **One transaction.** The hypotheses are about draws: a key has its width, and a device that is drawn was not
retired before. -/
theorem Keyring.step (h : Keyring env s) {o : MailOp} (hstep : KeyringStep env s o s')
    (hwide : ∀ k ∈ o.keysDrawn, k.length = 32)
    (hfresh : ∀ d ∈ o.devicesDrawn, rowRetired env s.db.proj d = false) : Keyring env s' := by
  cases hstep with
  | @maintained now drawn _ a heffect =>
    have hseen := h.installation_seen (hfresh drawn.deviceId (List.mem_singleton_self _))
    cases heffect with
    | retired hretired => exact (h.expire now).install hseen
    | current hlive hnewest hnow => exact (h.expire now).install hseen
    | generated hlive hpast he =>
      exact ((h.expire now).generate hpast he (hwide _ (List.mem_singleton_self _))).install hseen
  | expired => exact h.expire _
  | @enrolled device =>
    refine h.install fun hrow => ?_
    rw [hfresh device (List.mem_singleton_self _)] at hrow
    cases hrow
  | aside hepochs hmoved =>
    refine ⟨fun key e he => ?_, fun device k k' e e' hne he he' => ?_, hmoved.seen h.seen⟩
    · rw [hepochs] at he
      exact h.scheduled key e he
    · rw [hepochs] at he he'
      exact h.spaced device k k' e e' hne he he'

omit [Primitives] in
/-- A row of the expired table is as it was, or gone. -/
theorem unexpired_kept (epochs : Table EpochKey LocalEpoch) (now : ℕ) (key : EpochKey) :
    (unexpired epochs now).get key = epochs.get key ∨ (unexpired epochs now).get key = none := by
  rw [unexpired_get]
  cases epochs.get key with
  | none => exact .inl rfl
  | some e =>
    rw [Option.filter_some]
    split
    · exact .inl rfl
    · exact .inr rfl

/-- A key that is not drawn: its row is as it was, or gone. -/
theorem KeyringStep.kept {o : MailOp} (hstep : KeyringStep env s o s') {key : EpochKey}
    (hkey : (ofLex key).2 ∉ o.keysDrawn) : s'.epochs.get key = s.epochs.get key ∨ s'.epochs.get key = none := by
  cases hstep with
  | @maintained now drawn _ a heffect =>
    cases heffect with
    | retired hretired => exact unexpired_kept _ _ _
    | current hlive hnewest hnow => exact unexpired_kept _ _ _
    | generated hlive hpast he =>
      have hne : key ≠ toLex ((s.installation drawn).deviceId, drawn.publicKey) := by
        rintro rfl
        exact hkey (List.mem_singleton_self _)
      rw [Mailbox.installed_epochs, Mailbox.withEpochs_epochs, Table.get_insert_of_ne _ _ hne]
      exact unexpired_kept _ _ _
  | expired => exact unexpired_kept _ _ _
  | enrolled => exact .inl rfl
  | aside hepochs hmoved => exact .inl (by rw [hepochs])

omit [Primitives] in
/-- A row that expiry removes is past its deadline. -/
theorem unexpired_removed {epochs : Table EpochKey LocalEpoch} {now : ℕ} {key : EpochKey} {e : LocalEpoch}
    (he : epochs.get key = some e) (hnone : (unexpired epochs now).get key = none) :
    e.publicPart.decryptUntil ≤ now := by
  rw [unexpired_get, he, Option.filter_some] at hnone
  split at hnone
  · cases hnone
  · next hdue => simpa using hdue

/-- **A row goes only when its deadline is past**, and only by the two transactions that look for it. -/
theorem KeyringStep.removed {o : MailOp} (hstep : KeyringStep env s o s') {key : EpochKey} {e : LocalEpoch}
    (he : s.epochs.get key = some e) (hnone : s'.epochs.get key = none) :
    ∃ now, (o = .expireKeys now ∨ ∃ drawn, o = .maintain now drawn) ∧ e.publicPart.decryptUntil ≤ now := by
  cases hstep with
  | @maintained now drawn _ a heffect =>
    refine ⟨now, .inr ⟨drawn, rfl⟩, ?_⟩
    cases heffect with
    | retired hretired => exact unexpired_removed he hnone
    | current hlive hnewest hnow => exact unexpired_removed he hnone
    | generated hlive hpast hgenerate =>
      rw [Mailbox.installed_epochs, Mailbox.withEpochs_epochs] at hnone
      by_cases hkey : key = toLex ((s.installation drawn).deviceId, drawn.publicKey)
      · rw [hkey, Table.get_insert_self] at hnone
        cases hnone
      · rw [Table.get_insert_of_ne _ _ hkey] at hnone
        exact unexpired_removed he hnone
  | @expired now => exact ⟨now, .inl rfl, unexpired_removed he hnone⟩
  | enrolled =>
    rw [Mailbox.installed_epochs, he] at hnone
    cases hnone
  | aside hepochs hmoved =>
    rw [hepochs, he] at hnone
    cases hnone

/-- The epoch is the newest one of a live installation, and may be sent to. -/
structure AnnouncesNewest (s : Mailbox) (device : Bytes) (epoch : Dm.EpochPublic) (now : ℕ) : Prop where
  live : s.db.proj.idsDmInstallation = some ⟨device, false⟩
  retained : ∃ e, s.epochs.get (toLex (device, epoch.publicKey)) = some e ∧ e.publicPart = epoch
  newest : ∀ key e, s.epochs.get (toLex (device, key)) = some e → startOf e.publicPart ≤ startOf epoch
  current : now < epoch.sendUntil

/-- **An active announcement** is about an epoch that is retained, newest, and not over. -/
theorem MaintenanceEffect.announces (h : Keyring env s) {device : Bytes} {epoch : Dm.EpochPublic}
    (heffect : MaintenanceEffect s now drawn s' ⟨device, some epoch⟩) : AnnouncesNewest s' device epoch now := by
  have hinstalled : (s.installation drawn).retired = false →
      some (s.installation drawn) = some ⟨(s.installation drawn).deviceId, false⟩ := by
    intro hlive
    rw [← hlive]
  cases heffect with
  | current hlive hnewest hnow =>
    obtain ⟨⟨key, e, he, rfl⟩, hmax⟩ := newestEpoch_some (h.expire now).wide hnewest
    refine ⟨hinstalled hlive, ⟨e, ?_, rfl⟩, hmax, hnow⟩
    rw [((h.expire now).scheduled _ e he).2.1]
    exact he
  | @generated e hlive hpast he =>
    obtain ⟨hkey, hfrom, hscheduled⟩ := generate_scheduled he
    refine ⟨hinstalled hlive, ⟨e, ?_, rfl⟩, fun key e' he' => ?_, ?_⟩
    · rw [hkey]
      exact Table.get_insert_self ..
    · rw [Mailbox.installed_epochs, Mailbox.withEpochs_epochs] at he'
      by_cases hk : (toLex ((s.installation drawn).deviceId, key) : EpochKey) =
          toLex ((s.installation drawn).deviceId, drawn.publicKey)
      · rw [hk, Table.get_insert_self] at he'
        rw [Option.some.inj he']
      · -- every other window is over
        rw [Table.get_insert_of_ne _ _ hk] at he'
        have hover := (h.expire now).over hpast he'
        have hwindow := ((h.expire now).scheduled _ e' he').1.window
        refine le_of_lt (Prod.Lex.lt_iff.mpr (.inl ?_))
        show e'.publicPart.sendFrom < e.publicPart.sendFrom
        rw [hfrom]
        have hpositive : 0 < DM_KEY_SEND_WINDOW := by decide
        omega
    · rw [hscheduled.window, hfrom]
      exact Nat.lt_add_of_pos_right (by decide)

/-- The device is not the live installation. -/
def Lapsed (p : Projections) (device : Bytes) : Prop :=
  ∀ i, p.idsDmInstallation = some i → i.deviceId = device → i.retired = true

omit [Primitives] in
theorem DevicesMoved.lapsed {p p' : Projections} (h : DevicesMoved env p p') {device : Bytes}
    (hlapsed : Lapsed p device) : Lapsed p' device := by
  intro i' hi' hdevice
  have hmap := h.device
  rw [hi', Option.map_some] at hmap
  obtain ⟨i, hi, hsame⟩ := Option.map_eq_some_iff.mp hmap.symm
  have hany := h.retired (by rw [hi]; exact hlapsed i hi (hsame.trans hdevice))
  rw [hi'] at hany
  exact hany

omit [Primitives] in
/-- Maintenance installs what it finds, or a fresh device. -/
theorem Lapsed.installation {device : Bytes} (h : Lapsed s.db.proj device) (hfresh : drawn.deviceId ≠ device)
    (hdevice : (s.installation drawn).deviceId = device) : (s.installation drawn).retired = true := by
  unfold Mailbox.installation at hdevice ⊢
  cases hi : s.db.proj.idsDmInstallation with
  | none =>
    rw [hi, Option.getD_none] at hdevice
    exact absurd hdevice hfresh
  | some i =>
    rw [hi, Option.getD_some] at hdevice
    exact h i hi hdevice

/-- A device that is not drawn does not become live. -/
theorem KeyringStep.lapsed {o : MailOp} (hstep : KeyringStep env s o s') {device : Bytes}
    (hfresh : device ∉ o.devicesDrawn) (h : Lapsed s.db.proj device) : Lapsed s'.db.proj device := by
  have hinstalled : ∀ {s₁ : Mailbox} {i : Installation}, (i.deviceId = device → i.retired = true) →
      Lapsed (s₁.installed i).db.proj device := by
    intro s₁ i hi j hj hdevice
    obtain rfl := Option.some.inj hj
    exact hi hdevice
  cases hstep with
  | @maintained now drawn _ a heffect =>
    have hne : drawn.deviceId ≠ device := by
      rintro rfl
      exact hfresh (List.mem_singleton_self _)
    cases heffect with
    | retired hretired => exact hinstalled (h.installation hne)
    | current hlive hnewest hnow => exact hinstalled (h.installation hne)
    | generated hlive hpast he => exact hinstalled (h.installation hne)
  | expired => exact h
  | @enrolled deviceId =>
    refine hinstalled fun hdevice => ?_
    subst hdevice
    exact absurd (List.mem_singleton_self _) hfresh
  | aside hepochs hmoved => exact hmoved.lapsed h

/-- It gets no key. -/
theorem KeyringStep.no_key {o : MailOp} (hstep : KeyringStep env s o s') {key : EpochKey}
    (hfresh : (ofLex key).1 ∉ o.devicesDrawn) (h : Lapsed s.db.proj (ofLex key).1)
    (hnone : s.epochs.get key = none) : s'.epochs.get key = none := by
  have hexpired : ∀ now, (unexpired s.epochs now).get key = none := by
    intro now
    rw [unexpired_get, hnone]
    rfl
  cases hstep with
  | @maintained now drawn _ a heffect =>
    cases heffect with
    | retired hretired => exact hexpired now
    | current hlive hnewest hnow => exact hexpired now
    | generated hlive hpast he =>
      have hne : key ≠ toLex ((s.installation drawn).deviceId, drawn.publicKey) := by
        rintro rfl
        have hne : drawn.deviceId ≠ (s.installation drawn).deviceId := by
          intro heq
          exact hfresh (heq ▸ List.mem_singleton_self _)
        have hretired := h.installation hne rfl
        rw [hlive] at hretired
        cases hretired
      rw [Mailbox.installed_epochs, Mailbox.withEpochs_epochs, Table.get_insert_of_ne _ _ hne]
      exact hexpired now
  | @expired now => exact hexpired now
  | enrolled => exact hnone
  | aside hepochs hmoved => rw [hepochs, hnone]

/-- It is not announced. -/
theorem MaintenanceEffect.not_lapsed {device : Bytes} {epoch : Dm.EpochPublic} (hfresh : drawn.deviceId ≠ device)
    (h : MaintenanceEffect s now drawn s' ⟨device, some epoch⟩) : ¬Lapsed s.db.proj device := by
  intro hlapsed
  have hretired : ∀ {i : Installation}, i.deviceId = device → s.installation drawn = i → i.retired = true := by
    rintro i hdevice rfl
    exact hlapsed.installation hfresh hdevice
  cases h with
  | current hlive hnewest hnow =>
    rw [hretired rfl rfl] at hlive
    cases hlive
  | generated hlive hpast he =>
    rw [hretired rfl rfl] at hlive
    cases hlive

end Invariant

/-! ## 5. Runs

That a row never comes back is a fact about draws: a key that is drawn is not drawn again. The hypothesis is stated
for the whole run, since the table forgets the keys that have expired. -/

section Runs

variable (crypto : Crypto) (env : Env)

/-- **What is drawn is fresh**: no key and no device is drawn twice, and no announcement of the own account has
named a device before it is drawn.  Operations are given draws that they may not need; these are fresh as well. -/
structure FreshDraws (ops : List MailOp) : Prop where
  keys : (ops.flatMap MailOp.keysDrawn).Nodup
  wide : ∀ k ∈ ops.flatMap MailOp.keysDrawn, k.length = 32
  devices : (ops.flatMap MailOp.devicesDrawn).Nodup
  unannounced : ∀ before o after, ops = before ++ o :: after → ∀ d ∈ o.devicesDrawn,
    (mailReached crypto env before).db.proj.idsDmDevices.get (env.selfId, d) = none

/-- A transaction that fails leaves the keys alone as well. -/
theorem mailReached_keyring (ops : List MailOp) (o : MailOp) :
    KeyringStep env (mailReached crypto env ops) o (mailReached crypto env (ops ++ [o])) := by
  rw [mailReached, mailReached, mailRun_snoc]
  generalize run (mailStep crypto env) _ ops = s
  cases hstep : mailStep crypto env s o with
  | error e => exact .aside rfl (.refl _)
  | ok s' => exact mailStep_keyring hstep

variable {crypto env} {ops a b : List MailOp}

theorem FreshDraws.left (h : FreshDraws crypto env (a ++ b)) : FreshDraws crypto env a where
  keys := by
    have hkeys := h.keys
    rw [List.flatMap_append] at hkeys
    exact hkeys.of_append_left
  wide k hk := h.wide k (by rw [List.flatMap_append]; exact List.mem_append_left _ hk)
  devices := by
    have hdevices := h.devices
    rw [List.flatMap_append] at hdevices
    exact hdevices.of_append_left
  unannounced before o after heq d hd := by
    subst heq
    exact h.unannounced before o (after ++ b) (by rw [List.append_assoc, List.cons_append]) d hd

/-- What was drawn before is not drawn again. -/
theorem FreshDraws.key_once (h : FreshDraws crypto env (a ++ b)) {k : Bytes} (ha : k ∈ a.flatMap MailOp.keysDrawn) :
    k ∉ b.flatMap MailOp.keysDrawn := by
  have hkeys := h.keys
  rw [List.flatMap_append] at hkeys
  exact List.disjoint_of_nodup_append hkeys ha

theorem FreshDraws.device_once (h : FreshDraws crypto env (a ++ b)) {d : Bytes}
    (ha : d ∈ a.flatMap MailOp.devicesDrawn) : d ∉ b.flatMap MailOp.devicesDrawn := by
  have hdevices := h.devices
  rw [List.flatMap_append] at hdevices
  exact List.disjoint_of_nodup_append hdevices ha

/-- **The invariant of a run**: the key table is sound, and everything in it was drawn. The second part is what
turns freshness of draws into the fact that rows do not come back. -/
structure KeyringReached (crypto : Crypto) (env : Env) (ops : List MailOp) : Prop where
  keyring : Keyring env (mailReached crypto env ops)
  keys : ∀ key e, (mailReached crypto env ops).epochs.get key = some e → (ofLex key).2 ∈ ops.flatMap MailOp.keysDrawn
  devices : ∀ i, (mailReached crypto env ops).db.proj.idsDmInstallation = some i →
    i.deviceId ∈ ops.flatMap MailOp.devicesDrawn

/-- The installation is an old one or the one that was drawn. -/
theorem KeyringStep.installation {s s' : Mailbox} {o : MailOp} (hstep : KeyringStep env s o s') {i' : Installation}
    (hi' : s'.db.proj.idsDmInstallation = some i') :
    (∃ i, s.db.proj.idsDmInstallation = some i ∧ i.deviceId = i'.deviceId) ∨ i'.deviceId ∈ o.devicesDrawn := by
  have hinstalled : ∀ {drawn : Drawn}, s.installation drawn = i' →
      (∃ i, s.db.proj.idsDmInstallation = some i ∧ i.deviceId = i'.deviceId) ∨ i'.deviceId = drawn.deviceId := by
    rintro drawn rfl
    unfold Mailbox.installation
    cases hi : s.db.proj.idsDmInstallation with
    | none => exact .inr rfl
    | some i => exact .inl ⟨i, rfl, rfl⟩
  cases hstep with
  | @maintained now drawn _ a heffect =>
    have hsame : s.installation drawn = i' := by
      cases heffect with
      | retired hretired => exact Option.some.inj hi'
      | current hlive hnewest hnow => exact Option.some.inj hi'
      | generated hlive hpast he => exact Option.some.inj hi'
    refine (hinstalled hsame).imp id fun hdrawn => ?_
    rw [hdrawn]
    exact List.mem_singleton_self _
  | expired => exact .inl ⟨i', hi', rfl⟩
  | enrolled =>
    obtain rfl := Option.some.inj hi'
    exact .inr (List.mem_singleton_self _)
  | aside hepochs hmoved =>
    have hmap := hmoved.device
    rw [hi', Option.map_some] at hmap
    exact .inl (Option.map_eq_some_iff.mp hmap.symm)

theorem keyringReached : ∀ ops : List MailOp, FreshDraws crypto env ops → KeyringReached crypto env ops := by
  intro ops
  induction ops using List.reverseRecOn with
  | nil =>
    intro _
    refine ⟨⟨fun key e he => ?_, fun device k k' e e' _ he _ => ?_, fun i hi => ?_⟩, fun key e he => ?_,
      fun i hi => ?_⟩
    · cases he
    · cases he
    · cases hi
    · cases he
    · cases hi
  | append_singleton ops o ih =>
    intro hfresh
    have hbefore := ih hfresh.left
    have hstep := mailReached_keyring crypto env ops o
    refine ⟨hbefore.keyring.step hstep (fun k hk => hfresh.wide k ?_) fun d hd => ?_, fun key e he => ?_,
      fun i hi => ?_⟩
    · rw [List.flatMap_append]
      exact List.mem_append_right _ (by simpa using hk)
    · rw [rowRetired, hfresh.unannounced ops o [] rfl d hd]
      rfl
    · rw [List.flatMap_append]
      by_cases hkey : (ofLex key).2 ∈ o.keysDrawn
      · exact List.mem_append_right _ (by simpa using hkey)
      · rcases hstep.kept hkey with hsame | hnone
        · exact List.mem_append_left _ (hbefore.keys key e (hsame.symm.trans he))
        · rw [hnone] at he
          cases he
    · rw [List.flatMap_append]
      rcases hstep.installation hi with ⟨j, hj, hsame⟩ | hdrawn
      · exact List.mem_append_left _ (hsame ▸ hbefore.devices j hj)
      · exact List.mem_append_right _ (by simpa using hdrawn)

/-- **A row that was drawn stays as it is, or goes for good.** Nobody writes an existing row, and its key is not
drawn again. -/
theorem epochs_kept {key : EpochKey} (hdrawn : (ofLex key).2 ∈ a.flatMap MailOp.keysDrawn) :
    ∀ b : List MailOp, FreshDraws crypto env (a ++ b) →
      (mailReached crypto env (a ++ b)).epochs.get key = (mailReached crypto env a).epochs.get key ∨
        (mailReached crypto env (a ++ b)).epochs.get key = none := by
  intro b
  induction b using List.reverseRecOn with
  | nil => exact fun _ => .inl (by rw [List.append_nil])
  | append_singleton b o ih =>
    intro hfresh
    have hundrawn := hfresh.key_once hdrawn
    rw [← List.append_assoc] at hfresh ⊢
    have hstep := mailReached_keyring crypto env (a ++ b) o
    have hkey : (ofLex key).2 ∉ o.keysDrawn := by
      intro hmem
      exact hundrawn (List.mem_flatMap.mpr ⟨o, List.mem_append_right _ List.mem_cons_self, hmem⟩)
    rcases hstep.kept hkey with hsame | hnone
    · rw [hsame]
      exact ih hfresh.left
    · exact .inr hnone

/-- The installation is retired, or its own account has announced so. -/
def RetiredNow (env : Env) (s : Mailbox) (device : Bytes) : Prop :=
  ∃ i, s.db.proj.idsDmInstallation = some i ∧ i.deviceId = device ∧
    (i.retired = true ∨ rowRetired env s.db.proj device = true)

/-- **A retired device stays behind**: it is not the installation again, since devices are not drawn twice. -/
theorem lapsed_run {device : Bytes} (hretired : RetiredNow env (mailReached crypto env a) device) :
    ∀ b : List MailOp, FreshDraws crypto env (a ++ b) → Lapsed (mailReached crypto env (a ++ b)).db.proj device := by
  obtain ⟨i, hi, rfl, hor⟩ := hretired
  intro b
  induction b using List.reverseRecOn with
  | nil =>
    intro hfresh j hj _
    have hreached := keyringReached a hfresh.left
    rw [List.append_nil, hi] at hj
    obtain rfl := Option.some.inj hj
    exact hor.elim id (hreached.keyring.seen i hi)
  | append_singleton b o ih =>
    intro hfresh
    have hundrawn := hfresh.device_once ((keyringReached a hfresh.left).devices i hi)
    rw [← List.append_assoc] at hfresh ⊢
    refine (mailReached_keyring crypto env (a ++ b) o).lapsed (fun hmem => ?_) (ih hfresh.left)
    exact hundrawn (List.mem_flatMap.mpr ⟨o, List.mem_append_right _ List.mem_cons_self, hmem⟩)

/-! ## 6. The result

What a run says about an epoch, about two epochs that are retained together, and about a device that was retired. -/

/-- The life of an epoch: its row does not change, and goes once, when a transaction reads a clock that is past
its deadline. -/
structure EpochsLive (crypto : Crypto) (env : Env) (ops : List MailOp) : Prop where
  assigned : ∀ a b, a ++ b <+: ops → ∀ key e e', (mailReached crypto env a).epochs.get key = some e →
    (mailReached crypto env (a ++ b)).epochs.get key = some e' → e' = e
  gone : ∀ a b c, a ++ b ++ c <+: ops → ∀ key e, (mailReached crypto env a).epochs.get key = some e →
    (mailReached crypto env (a ++ b)).epochs.get key = none →
      (mailReached crypto env (a ++ b ++ c)).epochs.get key = none
  removed : ∀ a o, a ++ [o] <+: ops → ∀ key e, (mailReached crypto env a).epochs.get key = some e →
    (mailReached crypto env (a ++ [o])).epochs.get key = none →
      ∃ now, (o = .expireKeys now ∨ ∃ drawn, o = .maintain now drawn) ∧ e.publicPart.decryptUntil ≤ now

/-- The windows of the epochs that are retained together. -/
def WindowsSpaced (s : Mailbox) : Prop :=
  ∀ device k k' e e', k ≠ k' → s.epochs.get (toLex (device, k)) = some e →
    s.epochs.get (toLex (device, k')) = some e' → WindowsDisjoint e.publicPart e'.publicPart

/-- Nothing is announced or generated for the device in this transaction. -/
structure LeftAlone (crypto : Crypto) (env : Env) (before : List MailOp) (o : MailOp) (device : Bytes) : Prop where
  announced : ∀ now drawn s' epoch, o = .maintain now drawn →
    dmMaintainLocal (mailReached crypto env before) now drawn ≠ .ok (s', ⟨device, some epoch⟩)
  generated : ∀ key, (mailReached crypto env before).epochs.get (toLex (device, key)) = none →
    (mailReached crypto env (before ++ [o])).epochs.get (toLex (device, key)) = none

/-- **Local keys follow their deadlines.**  In every run, with any clock values: a row of the key table never
changes, goes only when its deadline is past and does not come back; a trial uses only keys before their deadline;
windows of one installation do not overlap; what maintenance announces is the newest epoch of the live
installation, within its window; and a retired installation gets and announces no further epoch. -/
theorem local_keys_deadlines (ops : List MailOp) (hfresh : FreshDraws crypto env ops) :
    EpochsLive crypto env ops ∧
      (∀ a now, a ++ [.trial now] <+: ops → Bounded crypto (mailReached crypto env a) now) ∧
      (∀ a, a <+: ops → WindowsSpaced (mailReached crypto env a)) ∧
      (∀ a now drawn s' device epoch, a ++ [.maintain now drawn] <+: ops →
        dmMaintainLocal (mailReached crypto env a) now drawn = .ok (s', ⟨device, some epoch⟩) →
          AnnouncesNewest s' device epoch now) ∧
      ∀ a b o device, a ++ b ++ [o] <+: ops → RetiredNow env (mailReached crypto env a) device →
        LeftAlone crypto env (a ++ b) o device := by
  have hinitial : ∀ {a}, a <+: ops → FreshDraws crypto env a := by
    rintro a ⟨rest, rfl⟩
    exact hfresh.left
  refine ⟨⟨fun a b hab key e e' he he' => ?_, fun a b c habc key e he hnone => ?_, fun a o hao key e he hnone => ?_⟩,
    fun a now _ => bounded _ now, fun a ha => (keyringReached a (hinitial ha)).keyring.spaced,
    fun a now drawn s' device epoch ha hok => ?_, fun a b o device hab hretired => ?_⟩
  · have hdrawn := (keyringReached a (hinitial hab).left).keys key e he
    rcases epochs_kept hdrawn b (hinitial hab) with hsame | hnone
    · exact Option.some.inj (he'.symm.trans (hsame.trans he))
    · rw [hnone] at he'
      cases he'
  · have hdrawn := (keyringReached a (hinitial habc).left.left).keys key e he
    have hlater : (ofLex key).2 ∈ (a ++ b).flatMap MailOp.keysDrawn := by
      rw [List.flatMap_append]
      exact List.mem_append_left _ hdrawn
    rcases epochs_kept hlater c (hinitial habc) with hsame | hgone
    · exact hsame.trans hnone
    · exact hgone
  · exact (mailReached_keyring crypto env a o).removed he hnone
  · exact (dmMaintainLocal_effect hok).announces (keyringReached a (hinitial ha).left).keyring
  · have hall := hinitial hab
    have hlapsed := lapsed_run hretired b hall.left
    obtain ⟨i, hi, rfl, -⟩ := hretired
    have hdrawn := (keyringReached a hall.left.left).devices i hi
    have hundrawn : i.deviceId ∉ o.devicesDrawn := by
      rw [List.append_assoc] at hall
      intro hmem
      exact hall.device_once hdrawn (List.mem_flatMap.mpr ⟨o, List.mem_append_right _ List.mem_cons_self, hmem⟩)
    refine ⟨fun now drawn s' epoch ho hok => ?_, fun key hnone => ?_⟩
    · subst ho
      refine (dmMaintainLocal_effect hok).not_lapsed (fun heq => ?_) hlapsed
      exact hundrawn (heq ▸ List.mem_singleton_self _)
    · exact (mailReached_keyring crypto env (a ++ b) o).no_key hundrawn hlapsed hnone

end Runs

end Keys

/-! ## 7. A rotation

A run with two installations and a retirement between them. -/

section Rotation

attribute [local instance] mailPrimitives

/-- A device and a key of their own for each call. -/
def maintainFresh (draw : ℕ) (now : ℕ) : MailOp :=
  .maintain now ⟨sampleInstallation draw, List.replicate 32 draw.toUInt8, [Char.ofNat draw]⟩

/-- Two keys, the retirement of the first installation, and two keys of the second one. -/
def sampleRotation : List MailOp :=
  [maintainFresh 1 0, maintainFresh 2 DM_KEY_SEND_WINDOW, .db (.ingest [.payload sampleRetirement 5 {}]),
    maintainFresh 3 (2 * DM_KEY_SEND_WINDOW), .reenroll (sampleInstallation 4), maintainFresh 5 9,
    maintainFresh 6 (6 * DM_KEY_SEND_WINDOW)]

theorem sampleRotation_fresh : FreshDraws sampleCrypto sampleEnv sampleRotation where
  keys := by decide +kernel
  wide := by decide +kernel
  devices := by decide +kernel
  unannounced := by
    have hall : ∀ n < sampleRotation.length, ∀ o ∈ (sampleRotation.drop n).head?, ∀ d ∈ o.devicesDrawn,
        (mailReached sampleCrypto sampleEnv (sampleRotation.take n)).db.proj.idsDmDevices.get
          (sampleEnv.selfId, d) = none := by
      decide +kernel
    intro before o after heq d hd
    have hlength : before.length < sampleRotation.length := by
      rw [heq, List.length_append, List.length_cons]
      omega
    have htake := hall before.length hlength o (by rw [heq, List.drop_left]; rfl) d hd
    rwa [show sampleRotation.take before.length = before by rw [heq, List.take_left]] at htake

/-- The call after the retirement leaves the first installation alone. -/
theorem local_keys_deadlines_sampleRotation :
    RetiredNow sampleEnv (mailReached sampleCrypto sampleEnv (sampleRotation.take 3)) (sampleInstallation 1) ∧
      EpochsLive sampleCrypto sampleEnv sampleRotation ∧
      WindowsSpaced (mailReached sampleCrypto sampleEnv sampleRotation) ∧
      LeftAlone sampleCrypto sampleEnv (sampleRotation.take 3) (maintainFresh 3 (2 * DM_KEY_SEND_WINDOW))
        (sampleInstallation 1) := by
  have hretired : RetiredNow sampleEnv (mailReached sampleCrypto sampleEnv (sampleRotation.take 3))
      (sampleInstallation 1) := ⟨⟨sampleInstallation 1, true⟩, by decide +kernel, rfl, .inl rfl⟩
  obtain ⟨hlive, -, hspaced, -, halone⟩ := local_keys_deadlines sampleRotation sampleRotation_fresh
  refine ⟨hretired, hlive, hspaced _ (List.prefix_refl _), ?_⟩
  have hinitial : sampleRotation.take 3 ++ [] ++ [maintainFresh 3 (2 * DM_KEY_SEND_WINDOW)] <+: sampleRotation :=
    ⟨sampleRotation.drop 4, rfl⟩
  exact halone (sampleRotation.take 3) [] _ _ hinitial hretired

end Rotation

end Rostra.Db
