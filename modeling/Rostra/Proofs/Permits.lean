/-
# A message is committed to eligible devices only

Selecting destinations and committing a message are two transactions at two times.  Between them goes a
permit, which compresses what each destination needs into one interval and a list of device rows.

* `Chosen` is what the selection checks of one destination, and `Granted` what a permit says about all of
  them, in any state of the tables: the index need not be exact for it.
* The interval of a permit is the intersection of the windows of its destinations, the skew of their
  publication times included, so a clock value in it makes every one of them eligible
  (`Granted.eligible`).
* The transaction that commits the message writes neither device rows nor the installation, so what its
  checks found holds in the committed state as well.

Two clocks are involved, and nothing relates them: the one at the selection and the one at the commit. In between,
devices may announce and retire, and the installation may be replaced. The commit checks the permit against the
tables as they are then; it does not select anew, so a device that has become eligible in the meantime is not among
the destinations.
-/
import Rostra.Db.Publication
import Rostra.Proofs.Destinations
import Rostra.Proofs.Origins
import Rostra.Proofs.Reduction

namespace Rostra.Db

open Rostra Outcome

section Permits

variable [Primitives]

/-! ## 1. What a permit says

The interval of a permit is the intersection of the windows of its destinations. It is not empty, because the time
of the selection is in all of them. -/

/-- **A selected destination** is the newest announcement of its device row, and eligible now. -/
structure Chosen (p : Projections) (now : ℕ) (d : RankedDestination) : Prop where
  state : p.idsDmDevices.get (d.account, (ofLex (ofLex d.rank).2).2) = some d.state
  latest : ∃ timestamp event epoch, d.state.latest = some (timestamp, event, epoch) ∧
    epoch.eligible now timestamp = true ∧ d.publicKey = epoch.publicKey ∧
    d.sendUntil = epoch.sendUntil ∧
    d.sendFrom = max epoch.sendFrom (timestamp - Dm.DM_FUTURE_ANNOUNCEMENT_SKEW)

theorem considerRow_chosen (env : Env) (p : Projections) (now : ℕ) (account : RostraId)
    (sendingDevice : Option Bytes) {selected : List RankedDestination}
    (h : ∀ d ∈ selected, Chosen p now d) (rank : Rank) :
    Ensures (considerRow env p now account sendingDevice selected rank)
      (fun selected' => ∀ d ∈ selected', Chosen p now d) (fun _ => True) := by
  unfold considerRow
  dsimp only
  split
  · exact h
  split
  · trivial
  next state hstate =>
  split
  · trivial
  next timestamp event epoch hlatest =>
  split
  · trivial
  next hchecked =>
  rw [not_or, not_not] at hchecked
  split
  · trivial
  intro d hd
  rcases List.mem_append.mp (List.mem_mergeSort.mp (List.mem_of_mem_take hd)) with hd | hd
  · exact h d hd
  · obtain rfl := List.mem_singleton.mp hd
    exact ⟨hstate, timestamp, event, epoch, hlatest, by simpa using hchecked.2, rfl, rfl, rfl⟩

theorem candidates_chosen (env : Env) (p : Projections) (now : ℕ) (sendingDevice : Option Bytes)
    (account : RostraId) :
    Ensures (candidates env p now sendingDevice account)
      (fun selected => ∀ d ∈ selected, Chosen p now d) (fun _ => True) := by
  unfold candidates
  refine Ensures.foldlM (J := fun selected => ∀ d ∈ selected, Chosen p now d) _ []
    (fun block _ selected hselected => ?_) (by simp)
  exact Ensures.foldlM (J := fun selected => ∀ d ∈ selected, Chosen p now d) _ selected
    (fun rank _ selected' h => considerRow_chosen env p now account sendingDevice h rank) hselected

/-- **What a permit says**: which installation it is for, and which state of which devices. -/
structure Granted (env : Env) (p : Projections) (recipient : RostraId) (now : ℕ)
    (permit : SendPermit) (selected : List RankedDestination) : Prop where
  recipient : permit.recipient = recipient
  sendingDevice : permit.sendingDevice = p.idsDmInstallation.map (·.deviceId)
  chosen : ∀ d ∈ selected, Chosen p now d
  until_le : ∀ d ∈ selected, permit.sendUntil ≤ d.sendUntil
  from_le : ∀ d ∈ selected, d.sendFrom ≤ permit.sendFrom
  keys : permit.keys = selected.map (·.publicKey)
  devices : permit.selected = selected.map fun d =>
    ((d.account, (ofLex (ofLex d.rank).2).2), d.state)

theorem dmDestinations_granted (env : Env) (p : Projections) (recipient : RostraId) (now : ℕ) :
    Ensures (dmDestinations env p recipient now)
      (fun permit => ∃ selected, Granted env p recipient now permit selected) (fun _ => True) := by
  unfold dmDestinations
  dsimp only
  split
  · trivial
  refine (candidates_chosen env p now _ recipient).bind fun recipients hrecipients => ?_
  split
  · trivial
  have hsenders : Ensures (senderCandidates env p now (p.idsDmInstallation.map (·.deviceId)) recipient)
      (fun selected => ∀ d ∈ selected, Chosen p now d) (fun _ => True) := by
    unfold senderCandidates
    split
    · intro d hd
      cases hd
    · exact candidates_chosen env p now _ env.selfId
  refine hsenders.bind fun senders hsenders => ?_
  generalize hselected : recipients.take _ ++ senders.take _ = selected
  have hchosen : ∀ d ∈ selected, Chosen p now d := by
    intro d hd
    rw [← hselected] at hd
    rcases List.mem_append.mp hd with hd | hd
    · exact hrecipients d (List.mem_of_mem_take hd)
    · exact hsenders d (List.mem_of_mem_take hd)
  unfold permitOf
  split
  · next sendUntil sendFrom hmin hmax =>
    refine ⟨selected, rfl, rfl, hchosen, fun d hd => ?_, fun d hd => ?_, rfl, rfl⟩
    · exact (List.min?_eq_some_iff.mp hmin).2 _ (List.mem_map_of_mem hd)
    · exact (List.max?_eq_some_iff.mp hmax).2 _ (List.mem_map_of_mem hd)
  · trivial

omit [Primitives] in
/-- **The interval of a permit is the rule for each device**, for any clock value in it. -/
theorem Granted.eligible {env : Env} {p : Projections} {recipient : RostraId} {now now' : ℕ}
    {permit : SendPermit} {selected : List RankedDestination}
    (h : Granted env p recipient now permit selected) (hfrom : permit.sendFrom ≤ now')
    (huntil : now' < permit.sendUntil) {d : RankedDestination} (hd : d ∈ selected) :
    ∃ timestamp event epoch, d.state.latest = some (timestamp, event, epoch) ∧
      epoch.publicKey = d.publicKey ∧ epoch.eligible now' timestamp = true := by
  obtain ⟨timestamp, event, epoch, hlatest, heligible, hkey, hlast, hfirst⟩ := (h.chosen d hd).latest
  refine ⟨timestamp, event, epoch, hlatest, hkey.symm, ?_⟩
  have hle := h.from_le d hd
  have hlt := h.until_le d hd
  unfold Dm.EpochPublic.eligible at heligible ⊢
  simp only [Bool.and_eq_true, decide_eq_true_eq] at heligible ⊢
  obtain ⟨⟨hpublished, -⟩, -⟩ := heligible
  rw [hfirst] at hle
  rw [hlast] at hlt
  have hopen : epoch.sendFrom ≤ permit.sendFrom := (le_max_left _ _).trans hle
  have hskew : timestamp - Dm.DM_FUTURE_ANNOUNCEMENT_SKEW ≤ permit.sendFrom :=
    (le_max_right _ _).trans hle
  have hstored : timestamp ≤ 2 ^ 64 - 1 := hpublished.trans (min_le_right _ _)
  refine ⟨⟨le_min ?_ hstored, hopen.trans hfrom⟩, Nat.lt_of_lt_of_le huntil hlt⟩
  exact Nat.sub_le_iff_le_add.mp (hskew.trans hfrom)

/-! ## 2. The tables the checks read

Devices change by announcements only. A message that is committed is none. -/

/-- The device rows and the installation. -/
def devicePart (p : Projections) : Table (RostraId × Bytes) Dm.DeviceState × Option Installation :=
  (p.idsDmDevices, p.idsDmInstallation)

omit [Primitives] in
/-- Posts are indexed elsewhere. -/
theorem devicePart_of_outside {p p' : Projections} (h : outsidePosts p' = outsidePosts p) :
    devicePart p' = devicePart p :=
  (congrArg devicePart h :)

/-- **A message that is processed waits for its keys**, and touches no device. -/
theorem processEventContentInsertedTx_devices (env : Env) (ctx : TxCtx) (p : Projections)
    {c : EventContent} (hkind : c.event.event.kind = EventKind.DIRECT_MESSAGE)
    (hplain : c.event.event.isSingleton = false) (now : Timestamp) :
    Ensures (processEventContentInsertedTx env ctx p c now)
      (fun p' => devicePart p' = devicePart p) (fun _ => True) := by
  have hdm : Ensures (processDmTx env p c) (fun r => devicePart r.1 = devicePart p)
      (fun _ => True) := by
    unfold processDmTx
    dsimp only
    split
    · trivial
    refine (ensures_true _).bind fun bytes _ => ?_
    rw [if_neg (by rw [hkind]; decide)]
    split
    · exact rfl
    · trivial
  unfold processEventContentInsertedTx processKindTx
  dsimp only
  rw [if_pos (.inr hkind)]
  refine hdm.bind fun r hr => ?_
  split
  · unfold insertSingletonTx
    rw [hplain]
    exact hr
  · exact hr

/-- A payload moves the device tables as its reducer does. -/
theorem processEventContentTx_moves {R : Projections → Projections → Prop}
    (hsame : ∀ p p', devicePart p' = devicePart p → R p p') (env : Env) (ctx : TxCtx) (db : Database)
    (c : VerifiedEventContent) (now : Timestamp) (ledger : AdmissionState)
    (buffer : Option PayloadBuffer)
    (hinserted : Ensures (processEventContentInsertedTx env ctx db.proj c.toEventContent now)
      (R db.proj) (fun _ => True)) :
    Ensures (processEventContentTx env ctx db c now ledger buffer)
      (fun db' => R db.proj db'.proj) (fun _ => True) := by
  unfold processEventContentTx
  refine (ensures_true _).bind fun before _ => ?_
  refine Ensures.bind (P := fun db₁ : Database => R db.proj db₁.proj) ?_
    fun db₁ h₁ => (payloadAfterTx_ensures env db₁ before).mono (fun db₂ ⟨a, x, hdb⟩ => ?_)
      fun _ _ => trivial
  · unfold processEventContentInnerTx
    split
    · exact hsame _ _ rfl
    split
    · refine (ensures_true _).bind fun _ _ => ?_
      unfold materializeTx
      dsimp only
      split
      · exact hsame _ _ rfl
      split
      · next p hp => exact (ensures_true _).bind fun _ _ => hinserted.of_ok hp
      · exact (ensures_true _).bind fun _ _ => hsame _ _ rfl
      · trivial
    · unfold supplyDeletedTx
      split
      · rw [deletedLineageTx_eq]
        exact hsame _ _ (devicePart_of_outside (withLineage_outside _ _))
      · exact hsame _ _ rfl
  · subst hdb
    exact h₁

/-! ## 3. The commit

The checks of the commit are made in the transaction that stores the message. Between them and the end of the
transaction nothing else can happen. -/

/-- **A permit that was given over `p₀` is good in `p` now**: the installation is the same and lives on,
and every device whose key is in the permit has the announcement it was selected with, which is eligible. -/
structure PermitHolds (p₀ p : Projections) (permit : SendPermit) (now : ℕ) : Prop where
  installation : p.idsDmInstallation.map (·.deviceId) = p₀.idsDmInstallation.map (·.deviceId)
  live : ∀ installation, p.idsDmInstallation = some installation → installation.retired = false
  devices : List.Forall₂ (fun key (entry : (RostraId × Bytes) × Dm.DeviceState) =>
    p₀.idsDmDevices.get entry.1 = some entry.2 ∧ p.idsDmDevices.get entry.1 = some entry.2 ∧
      ∃ timestamp event epoch, entry.2.latest = some (timestamp, event, epoch) ∧
        epoch.publicKey = key ∧ epoch.eligible now timestamp = true) permit.keys permit.selected

omit [Primitives] in
/-- The check of the committing transaction, for a permit that was selected. -/
theorem permitCurrent_holds {env : Env} {p₀ p : Projections} {recipient : RostraId} {now₀ now : ℕ}
    {permit : SendPermit} {selected : List RankedDestination}
    (hgranted : Granted env p₀ recipient now₀ permit selected) {body : Dm.MessageBody}
    (h : permitCurrent env p body permit now = true) :
    body.recipient = recipient ∧ PermitHolds p₀ p permit now := by
  unfold permitCurrent at h
  simp only [Bool.and_eq_true, decide_eq_true_eq, Bool.not_eq_true', List.all_eq_true] at h
  obtain ⟨⟨⟨⟨-, hrecipient, huntil, hfrom⟩, hlive⟩, hinstallation⟩, hdevices⟩ := h
  refine ⟨hrecipient.symm.trans hgranted.recipient, hinstallation.trans hgranted.sendingDevice,
    fun installation hi => ?_, ?_⟩
  · rw [hi] at hlive
    exact hlive
  · rw [hgranted.keys, hgranted.devices, List.forall₂_map_left_iff, List.forall₂_map_right_iff,
      List.forall₂_same]
    intro d hd
    refine ⟨(hgranted.chosen d hd).state, ?_, ?_⟩
    · have hentry := hdevices _ (hgranted.devices ▸ List.mem_map_of_mem hd)
      exact hentry
    · exact hgranted.eligible hfrom huntil hd

omit [Primitives] in
theorem PermitHolds.congr {p₀ p p' : Projections} {permit : SendPermit} {now : ℕ}
    (h : PermitHolds p₀ p permit now) (hp : devicePart p' = devicePart p) :
    PermitHolds p₀ p' permit now := by
  obtain ⟨hdevices, hinstallation⟩ := Prod.mk.inj hp
  refine ⟨?_, ?_, ?_⟩
  · rw [hinstallation]
    exact h.installation
  · rw [hinstallation]
    exact h.live
  · rw [hdevices]
    exact h.devices

omit [Primitives] in
/-- A stored message is in the history under its key, with its text or with the mark of a conflict. -/
theorem dmStoreHistoryTx_stored (t : Dm.DmTables) (body : Dm.MessageBody) (eventId : ShortEventId)
    (timestamp : Timestamp) :
    Ensures (Dm.dmStoreHistoryTx t body eventId timestamp) (fun t' => ∃ entry,
      t'.history.get body.key = some entry ∧
      ((entry.recipient = body.recipient ∧ entry.text = body.text) ∨ entry.conflicted = true))
      (fun _ => True) := by
  unfold Dm.dmStoreHistoryTx
  split
  · next previous hprevious =>
    split
    · exact ⟨_, Table.get_insert_self .., .inr rfl⟩
    · next hsame =>
      rw [not_or, not_not, not_not] at hsame
      exact ⟨previous, hprevious, .inl hsame⟩
  · split
    · trivial
    dsimp only
    split
    · refine (ensures_true _).bind fun sequence _ => ?_
      unfold Dm.indexIncomingTx
      refine (ensures_true _).bind fun counts _ => ?_
      exact ⟨_, Table.get_insert_self .., .inl ⟨rfl, rfl⟩⟩
    · exact ⟨_, Table.get_insert_self .., .inl ⟨rfl, rfl⟩⟩

/-- After an envelope, the header under its id is stored; after its payload, it still is. -/
theorem processEventTx_stored (env : Env) (ctx : TxCtx) (db : Database) (v : VerifiedEvent)
    (now : Timestamp) (source : EventReceivedSource) :
    Ensures (processEventTx env ctx db v now source) (fun r => isStored r.1 v.id = true)
      (fun _ => True) := by
  refine (processEventTx_receipt env ctx db v now source).mono (fun r hr => ?_) fun _ h => h
  cases hr with
  | present e he hev hfin ho hq => exact isStored_iff.mpr ⟨e, by rw [hev]; exact he⟩
  | new hnew t₁ isD dp rev hins hfin ho hq =>
    exact isStored_iff.mpr ⟨v.event, by rw [hfin.events, hins.events, Table.get_insert_self]⟩

/-- **A message is committed to eligible devices only.**  For a permit given at `now₀` and any later
state of the tables, whatever was committed in between, and any clock value at the commit: if the commit
succeeds, the permit holds in the state it found and in the state it left; the message is processed and
in the history.  If it fails, nothing was written. -/
theorem dm_commit_eligible {env : Env} {p₀ : Projections} {recipient : RostraId} {now₀ : ℕ}
    {permit : SendPermit} (hpermit : dmDestinations env p₀ recipient now₀ = .ok permit)
    (db : Database) (history : Dm.DmTables) (c : VerifiedEventContent) (body : Dm.MessageBody)
    (now : Timestamp) (ledger : AdmissionState) (buffer : Option PayloadBuffer) :
    match dmCommitOutgoing env db history c body permit now ledger buffer with
    | .ok (db', history') =>
      body.sender = env.selfId ∧ body.recipient = recipient ∧
      PermitHolds p₀ db.proj permit now ∧ PermitHolds p₀ db'.proj permit now ∧
      isProcessed db' c.event.id = true ∧
      ∃ entry, history'.history.get body.key = some entry ∧
        ((entry.recipient = body.recipient ∧ entry.text = body.text) ∨ entry.conflicted = true)
    | .error e =>
      commit (.error e) (db, history) = (db, history) := by
  obtain ⟨selected, hgranted⟩ := (dmDestinations_granted env p₀ recipient now₀).of_ok hpermit
  split
  · next db' history' hcommit =>
    unfold dmCommitOutgoing at hcommit
    dsimp only at hcommit
    split at hcommit
    · cases hcommit
    next hshape =>
    simp only [not_or, not_not] at hshape
    obtain ⟨hsender, -, hkind, hplain, -, -⟩ := hshape
    split at hcommit
    · cases hcommit
    next hcurrent =>
    obtain ⟨hrecipient, hholds⟩ := permitCurrent_holds hgranted (by simpa using hcurrent)
    split at hcommit
    · cases hcommit
    next db₁ _ henvelope =>
    have hstored := (processEventTx_stored env {} db c.event now _).of_ok henvelope
    have hdevices₁ : devicePart db₁.proj = devicePart db.proj :=
      devicePart_of_outside ((processEventTx_effect env {} db c.event now _).of_ok henvelope).outside
    split at hcommit
    · cases hcommit
    · cases hcommit
    next db₂ hpayload =>
    have hdevices₂ : devicePart db₂.proj = devicePart db₁.proj :=
      (processEventContentTx_moves (R := fun p p' => devicePart p' = devicePart p) (fun _ _ h => h) env {}
        db₁ c now ledger buffer (processEventContentInsertedTx_devices env {} db₁.proj hkind
          (by simpa using hplain) now)).of_ok hpayload
    have hevents := ((processEventContentTx_supplied env {} db₁ c now ledger buffer).of_ok hpayload).events
    split at hcommit
    · cases hcommit
    next hprocessed =>
    split at hcommit
    · cases hcommit
    · cases hcommit
    next history₂ hstore =>
    cases hcommit
    refine ⟨hsender, hrecipient, hholds, hholds.congr (hdevices₂.trans hdevices₁), ?_,
      (dmStoreHistoryTx_stored _ _ _ _).of_ok hstore⟩
    rw [isProcessed_iff, isStored_congr hevents]
    exact ⟨hstored, by simpa using hprocessed⟩
  · rfl

end Permits

section Sample

attribute [local instance] Primitives.reference

/-- One device of the recipient, announced at 5 and good until 8. -/
def samplePublished : Projections :=
  dmApplyAnnouncementTx sampleEnv {} (toLex (1, 1)) ⟨[3], some ⟨[7], 0, 8, 16⟩⟩ 5 5

def samplePermit : SendPermit where
  sender := toLex (9, 9)
  recipient := toLex (1, 1)
  keys := [[7]]
  sendUntil := 8
  sendFrom := 0
  selected := [((toLex (1, 1), [3]), ⟨false, some (5, 5, ⟨[7], 0, 8, 16⟩)⟩)]
  sendingDevice := none

def sampleFrame : Event :=
  { kind := EventKind.DIRECT_MESSAGE, contentLen := 2, timestamp := 6, author := toLex (9, 9)
    contentHash := blake3 [1, 2] }

def sampleSealed : VerifiedEventContent := ⟨⟨.ofEvent sampleFrame, some [1, 2]⟩, by decide⟩

def sampleLetter : Dm.MessageBody := ⟨toLex (9, 9), toLex (1, 1), 1, ['h', 'i']⟩

/-- Selected at 6, committed at 7. -/
theorem dm_commit_eligible_sampleLetter :
    ∃ db' history', dmCommitOutgoing sampleEnv { proj := samplePublished }
        { idsSelf := some (toLex (9, 9)) } sampleSealed sampleLetter samplePermit 7 {} none =
          .ok (db', history') ∧
      PermitHolds samplePublished samplePublished samplePermit 7 ∧
      PermitHolds samplePublished db'.proj samplePermit 7 ∧
      isProcessed db' sampleSealed.event.id = true := by
  have hpermit : dmDestinations sampleEnv samplePublished (toLex (1, 1)) 6 = .ok samplePermit := by
    have hsome : (dmDestinations sampleEnv samplePublished (toLex (1, 1)) 6).toOption =
        some samplePermit := by
      decide +kernel
    cases hresult : dmDestinations sampleEnv samplePublished (toLex (1, 1)) 6 with
    | ok permit =>
      rw [hresult] at hsome
      exact congrArg Except.ok (Option.some.inj hsome)
    | error e =>
      rw [hresult] at hsome
      cases hsome
  have hcommitted : (dmCommitOutgoing sampleEnv { proj := samplePublished }
      { idsSelf := some (toLex (9, 9)) } sampleSealed sampleLetter samplePermit 7 {} none).isOk =
        true := by
    decide +kernel
  have heligible := dm_commit_eligible hpermit { proj := samplePublished }
    { idsSelf := some (toLex (9, 9)) } sampleSealed sampleLetter 7 {} none
  split at heligible
  · next db' history' hcommit =>
    exact ⟨db', history', hcommit, heligible.2.2.1, heligible.2.2.2.1, heligible.2.2.2.2.1⟩
  · next e hcommit =>
    rw [hcommit] at hcommitted
    cases hcommitted

end Sample

end Rostra.Db
