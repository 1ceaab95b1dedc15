/-
# Runs of the upkeep

The properties of `preemptPayloadDemandBoundWith` and `pressureStepWith` over every run of the machine, whatever
is interleaved with them.

* `Readies`: accounting that was complete stays complete, so that the authors of an account can be compared by
  revision.
* `UpkeepSound` is the invariant of the run: its database is reachable, every stored frontier is good at
  its revision, every flag goes back to a visit that found too much, and whatever the pass over the authors has
  passed was left for a reason.

A turn of the worker may fail to commit, and what it did is then undone while the worker has moved on; the history
of the visits therefore records whether each of them was committed. A visit that ends with an error leaves no mark
at all.
-/
import Rostra.Proofs.PayloadPressure

namespace Rostra.Db

open Rostra Outcome

section Machine

variable [Primitives] {D : Set VerifiedEvent} {env : Env} {db db' db'' : Database}

/-! ## 1. Complete accounting stays complete

The worker does nothing before the accounting is complete. It then relies on it for as long as the process lives. -/

/-- Accounting that is complete stays so. -/
def Readies (db db' : Database) : Prop :=
  (accountingTx db.accounting).stage = .ready → (accountingTx db'.accounting).stage = .ready

omit [Primitives] in
theorem collectQuotaPayloadStepTx_readies (db : Database) (after : Option ContentHash) (maxBytes : ℕ) :
    Ensures (collectQuotaPayloadStepTx db after maxBytes) (fun r => Readies db r.1) (fun _ => True) := by
  unfold collectQuotaPayloadStepTx
  dsimp only
  refine (ensures_true _).bind fun _ _ => ?_
  split
  · exact id
  refine (ensures_true _).bind fun _ _ => ?_
  split
  · trivial
  split
  · split
    · exact id
    · exact (ensures_true _).bind fun _ _ => id
  · exact id

omit [Primitives] in
theorem rebuildPayloadAccounting_readies (env : Env) (db : Database) (limit : ℕ) :
    Ensures (rebuildPayloadAccounting env db limit) (Readies db) (fun _ => True) := by
  unfold rebuildPayloadAccounting
  split
  · trivial
  refine Ensures.bind ((ensures_self _).mono (fun _ h => h) fun _ _ => trivial) fun r hr hready => ?_
  -- a loop that is complete stops at once
  have hstop : ∀ fuel rest, rebuildAccountingLoop env db fuel rest db.accounting (accountingTx db.accounting) =
      .ok (db.accounting, accountingTx db.accounting) := by
    intro fuel rest
    cases fuel with
    | zero => rfl
    | succ fuel =>
      cases rest with
      | zero => rfl
      | succ rest =>
        unfold rebuildAccountingLoop rebuildAccountingStep
        dsimp only
        rw [hready]
        rfl
  rw [hstop] at hr
  cases hr
  exact hready

theorem Piece.readies {Q : Set QuotaPruneRequest} (h : Piece env D Q db db') : Readies db db' := by
  cases h with
  | bracket hbefore hred hafter hq =>
    intro hready
    refine ((payloadAfterTx_retains env _ _).of_ok hafter).2.1.trans ?_
    rcases hred.accounting with heq | heq
    · rw [heq]
      exact hready
    · rw [heq]
      exact hready
  | collected h => exact (collectQuotaPayloadStepTx_readies db _ _).of_ok h
  | accounted h => exact (rebuildPayloadAccounting_readies env db _).of_ok h
  | nominated h =>
    unfold rebuildQuotaPayloadNominations at h
    split at h
    · cases h
    obtain ⟨r, hr, hok⟩ := bind_eq_ok.mp h
    cases hok
    intro hready
    have hstate := ((recoverNominationsLoop_books env db _ _ _).of_ok hr).2.2
    show (r.1.state.getD {}).stage = .ready
    rw [hstate]
    exact hready
  | configured policy => exact id
  | indexed h =>
    rw [(rebuildRetentionIndex_eq env db _).of_ok h]
    exact id
  | promoted h =>
    rw [(promoteRetentionGrace_eq db _ _).of_ok h]
    exact id
  | scheduled h => exact id
  | ranked postId now => exact id

/-- **No transaction takes the accounting back** from the last stage of its rebuild. -/
theorem step_readies (hcf : CollisionFree D) (hg : Grounded D db.ev) (o : Op) (hD : ∀ v ∈ o.delivered, v ∈ D)
    (h : step env db o = .ok db') : Readies db db' := by
  have hpieces : Pieces env D Set.univ Anything db db' := (step_pieces (anything_keeps D) hcf ⟨hg, trivial⟩ o hD
    fun _ _ => Set.mem_univ _).of_ok h
  clear h
  induction hpieces with
  | refl => exact id
  | tail _ hlink ih => exact fun hready => hlink.2.2.readies (ih hready)

/-! ## 2. Transactions and revisions

What is remembered is remembered together with two revisions. A transaction that leaves a revision alone must not
have changed what was read under it; that is `Raised`, and it is the only thing the worker needs to know of what
others do. -/

/-- **What a transaction does to the two revisions**: neither goes back, and one that stands still means that
what it counts has not changed. -/
structure Raised (db db' : Database) (l l' : AdmissionLedger) : Prop where
  retention : l.retentionRevision ≤ l'.retentionRevision
  rows : l'.retentionRevision = l.retentionRevision → sameRows db.retention db'.retention = true
  pressure : l.pressureRevision ≤ l'.pressureRevision
  authors : l'.pressureRevision = l.pressureRevision → l'.pressureRevision ≠ u64Max →
    (accountingTx db.accounting).stage = .ready → db'.accounting.authors.keys = db.accounting.authors.keys
  accounting : Readies db db'

/-- The two revisions are machine words. -/
structure Capped (l : AdmissionLedger) : Prop where
  retention : l.retentionRevision ≤ u64Max
  pressure : l.pressureRevision ≤ u64Max

omit [Primitives] in
theorem sameRows_refl (r : RetentionIndex) : sameRows r r = true := sameRows_iff.mpr ⟨rfl, rfl, rfl, rfl, rfl⟩

omit [Primitives] in
theorem Raised.refl (db : Database) (l : AdmissionLedger) : Raised db db l l :=
  ⟨le_rfl, fun _ => sameRows_refl _, le_rfl, fun _ _ _ => rfl, id⟩

/-- **The end of a transaction.** -/
structure Ended (u u' : Upkeep) (db' : Database) (tables' : PressureTables) (fate : Fate) : Prop where
  db : u'.db = if u.takes db' fate then db' else u.db
  tables : u'.tables = if u.takes db' fate then tables' else u.tables
  epoch : u'.epoch = u.epoch
  cursor : u'.cursor = u.cursor
  demands : u'.ledger.demands = u.ledger.demands
  raised : Raised u.db u'.db u.ledger u'.ledger
  bounded : Capped u'.ledger

omit [Primitives] in
theorem finish_spec (u : Upkeep) (db' : Database) (tables' : PressureTables) (fate : Fate)
    (hb : Capped u.ledger) (hready : Readies u.db db') :
    Ended u (u.finish db' tables' fate) db' tables' fate := by
  unfold Upkeep.finish
  dsimp only
  by_cases hcommits : fate.commits = true ∧ (u.ledger.raised u.db db' fate).retentionRevision ≤ u64Max
  · have htakes : u.takes db' fate = true := by simpa [Upkeep.takes] using hcommits
    rw [if_pos hcommits]
    refine ⟨by rw [htakes]; rfl, by rw [htakes]; rfl, rfl, rfl, rfl,
      ⟨?_, fun heq => ?_, ?_, fun heq hbound hstage => ?_, hready⟩, hcommits.2, min_le_left _ _⟩
    · simp only [AdmissionLedger.raised]
      omega
    · by_contra hrows
      simp only [AdmissionLedger.raised, if_neg hrows] at heq
      omega
    · exact le_min hb.pressure (by omega)
    · by_contra hkeys
      have hmoved : (accountingTx u.db.accounting).stage = .ready ∧
          db'.accounting.authors.keys ≠ u.db.accounting.authors.keys := ⟨hstage, hkeys⟩
      simp only [AdmissionLedger.raised, if_pos hmoved] at heq hbound
      omega
  · have htakes : u.takes db' fate = false := by simpa [Upkeep.takes] using hcommits
    rw [if_neg hcommits]
    refine ⟨by rw [htakes]; rfl, by rw [htakes]; rfl, rfl, rfl, rfl,
      ⟨?_, fun _ => sameRows_refl _, ?_, fun _ _ _ => rfl, id⟩, min_le_left _ _, min_le_left _ _⟩
    · refine le_min hb.retention ?_
      simp only [AdmissionLedger.raised]
      omega
    · exact le_min hb.pressure (by omega)

/-! ## 3. The invariant

The tables hold the frontiers and the flags, the cursor is in memory. A flag and the passing of an author are both
traced back to visits of the history. -/

/-- **Where a flag comes from**: a committed visit of this incarnation that found the scope above its budget, with
every committed one since then above the low water. -/
def Triggered (epoch : ℕ) (scope : Option RostraId) (trace : List VisitMark) : Prop :=
  ∃ before m after, trace = before ++ m :: after ∧ m.committed = true ∧ m.state.epoch = epoch ∧
    m.visit.scope = scope ∧ m.visit.high < m.visit.total ∧
    ∀ m' ∈ after, m'.committed = true → m'.state.epoch = epoch → m'.visit.scope = scope →
      experimentalLowWater m'.visit.high < m'.visit.total

/-- **Why the pass has left an author**: it was visited at the current revisions, and was blocked; if nothing was
left to release, nothing will be before the retry time. -/
def SettledIn (trace : List VisitMark) (u : Upkeep) (retry : Option Timestamp) (author : RostraId) : Prop :=
  ∃ m ∈ trace, m.state.epoch = u.epoch ∧ m.visit.scope = some author ∧
    m.state.ledger.pressureRevision = u.ledger.pressureRevision ∧
    m.state.ledger.retentionRevision = u.ledger.retentionRevision ∧
    ∃ reason, m.visit.selection = .blocked reason ∧ (reason = .exhausted →
      ∀ key ∈ scopeKeys u.db.retention (some author), ∃ t, retry = some t ∧
        t ≤ dueAt u.db.retention (some author) key)

/-- The authors and the state of the accounting, as the cursor of `u` sees them. -/
abbrev CursorOf (trace : List VisitMark) (u : Upkeep) (c : PressureCursor) : Prop :=
  CursorSound u.ledger u.db.accounting.authors.keys ((accountingTx u.db.accounting).stage = .ready)
    (SettledIn trace u) c

/-- What the tables of the worker say. -/
structure TablesSound (D : Set VerifiedEvent) (u : Upkeep) (trace : List VisitMark) : Prop where
  frontiers : PressureSound D u.db.retention u.ledger.retentionRevision u.epoch u.tables u.cursor
  flags : ∀ scope, armed u.tables u.epoch scope = true → Triggered u.epoch scope trace

/-- **The invariant of a run.** Its database is reached by transactions, and the memory of the worker is good in
the state that is committed. -/
structure UpkeepSound (D : Set VerifiedEvent) (env : Env) (u : Upkeep) (trace : List VisitMark) : Prop where
  history : ∃ ops, DeliveredFrom D ops ∧ u.db = reached env ops
  bounded : Capped u.ledger
  demands : DemandsSound u.db.retention u.ledger.retentionRevision u.ledger.demands
  rows : ∀ author row, u.tables.authors.get author = some row →
    ∃ record, u.tables.state = some record ∧ row.epoch ≤ record.epoch
  cursor : CursorOf trace u u.cursor
  tables : u.epoch ≠ 0 → TablesSound D u trace

section Invariant

variable {u u' : Upkeep} {trace shown : List VisitMark} {l l' : AdmissionLedger} {c : PressureCursor}
  {epoch : ℕ} {scope : Option RostraId}

omit [Primitives] in
theorem DemandsSound.congr {d : DemandState} (h : DemandsSound db.retention l.retentionRevision d)
    (hr : Raised db db' l l') : DemandsSound db'.retention l'.retentionRevision d :=
  fun event entry hget scan hscan => (h event entry hget scan hscan).congr hr.retention hr.rows

theorem PressureSound.congr {t : PressureTables} (h : PressureSound D db.retention l.retentionRevision epoch t c)
    (hr : Raised db db' l l') : PressureSound D db'.retention l'.retentionRevision epoch t c :=
  ⟨fun author row hrow hepoch s hs => (h.authors author row hrow hepoch s hs).congr hr.retention hr.rows,
    fun s hs => (h.global s hs).congr hr.retention hr.rows⟩

omit [Primitives] in
theorem SettledIn.sooner {retry retry' : Option Timestamp} {author : RostraId} (hs : Sooner retry retry')
    (h : SettledIn trace u retry author) : SettledIn trace u retry' author := by
  obtain ⟨m, hm, hepoch, hscope, hp, hr, reason, hblocked, hrests⟩ := h
  refine ⟨m, hm, hepoch, hscope, hp, hr, reason, hblocked, fun hexhausted key hkey => ?_⟩
  obtain ⟨t, ht, hle⟩ := hrests hexhausted key hkey
  obtain ⟨t', ht', hle'⟩ := hs t ht
  exact ⟨t', ht', hle'.trans hle⟩

variable (shown) in
omit [Primitives] in
/-- **A pass that is still current after a transaction** has nothing to learn from it: the revision stands still,
so the authors and their rows are what they were. -/
theorem CursorSound.congr (h : CursorOf trace u c) (hr : Raised u.db u'.db u.ledger u'.ledger)
    (hepoch : u'.epoch = u.epoch) : CursorOf (trace ++ shown) u' c := by
  refine ⟨fun n hn => (h.known n hn).trans hr.pressure, fun n hn => (h.indexKnown n hn).trans hr.retention,
    h.indexed, h.fresh, fun hsome => hr.accounting (h.ready hsome), fun hp hi hbound => ?_⟩
  have hpressure : u'.ledger.pressureRevision = u.ledger.pressureRevision :=
    le_antisymm (h.known _ hp) hr.pressure
  have hretention : u'.ledger.retentionRevision = u.ledger.retentionRevision :=
    le_antisymm (h.indexKnown _ hi) hr.retention
  have hready := h.ready (by rw [hp]; rfl)
  have hkeys := hr.authors hpressure hbound hready
  have hrows := hr.rows hretention
  have hpass := h.pass (hpressure ▸ hp) (hretention ▸ hi) (hpressure ▸ hbound)
  rw [hkeys]
  refine ⟨fun a ha hbehind => ?_, hpass.selected⟩
  obtain ⟨m, hm, he, hscope, hp', hi', reason, hblocked, hrests⟩ := hpass.behind a ha hbehind
  refine ⟨m, List.mem_append_left _ hm, he.trans hepoch.symm, hscope, hp'.trans hpressure.symm,
    hi'.trans hretention.symm, reason, hblocked, fun hexhausted key hkey => ?_⟩
  rw [scopeKeys_congr hrows] at hkey
  rw [dueAt_congr hrows]
  exact hrests hexhausted key hkey

omit [Primitives] in
/-- A committed visit finds too much. -/
theorem Triggered.here {m : VisitMark} (hcommitted : m.committed = true) (hepoch : m.state.epoch = epoch)
    (hscope : m.visit.scope = scope) (hhigh : m.visit.high < m.visit.total) :
    Triggered epoch scope (trace ++ [m]) :=
  ⟨trace, m, [], rfl, hcommitted, hepoch, hscope, hhigh, fun _ hno => by cases hno⟩

omit [Primitives] in
/-- Another visit does not end it, unless it finds the scope at its low water. -/
theorem Triggered.snoc {m : VisitMark} (h : Triggered epoch scope trace)
    (hm : m.committed = true → m.state.epoch = epoch → m.visit.scope = scope →
      experimentalLowWater m.visit.high < m.visit.total) : Triggered epoch scope (trace ++ [m]) := by
  obtain ⟨before, m₀, after, rfl, h₀, he₀, hs₀, hhigh, hsince⟩ := h
  refine ⟨before, m₀, after ++ [m], by simp, h₀, he₀, hs₀, hhigh, fun m' hm' hc' he' hs' => ?_⟩
  rcases List.mem_append.mp hm' with hm' | hm'
  · exact hsince m' hm' hc' he' hs'
  · obtain rfl := List.mem_singleton.mp hm'
    exact hm hc' he' hs'

/-- Writing elsewhere leaves the tables of the worker good. -/
theorem TablesSound.congr (h : TablesSound D u trace) (hr : Raised u.db u'.db u.ledger u'.ledger)
    (htables : u'.tables = u.tables) (hepoch : u'.epoch = u.epoch)
    (hscan : ∀ s, u'.cursor.globalScan = some s → u.cursor.globalScan = some s) : TablesSound D u' trace := by
  have hfrontiers := h.frontiers.congr hr
  refine ⟨?_, ?_⟩
  · rw [htables, hepoch]
    exact ⟨hfrontiers.authors, fun s hs => hfrontiers.global s (hscan s hs)⟩
  · rw [htables, hepoch]
    exact h.flags

/-- **The other actions** change neither the tables of the worker nor, unless they drop it, its cursor. -/
theorem UpkeepSound.other (h : UpkeepSound D env u trace)
    (hhistory : ∃ ops, DeliveredFrom D ops ∧ u'.db = reached env ops)
    (hr : Raised u.db u'.db u.ledger u'.ledger) (hb : Capped u'.ledger)
    (hdemands : DemandsSound u.db.retention u.ledger.retentionRevision u'.ledger.demands)
    (htables : u'.tables = u.tables) (hepoch : u'.epoch = u.epoch)
    (hcursor : u'.cursor = u.cursor ∨ u'.cursor = {}) : UpkeepSound D env u' trace := by
  have hpass := CursorSound.congr [] h.cursor hr hepoch
  rw [List.append_nil] at hpass
  refine ⟨hhistory, hb, hdemands.congr hr, htables ▸ h.rows, ?_, fun hstarted => ?_⟩
  · rcases hcursor with heq | heq
    · rw [heq]
      exact hpass
    · rw [heq]
      exact cursorSound_empty
  · refine (h.tables (hepoch ▸ hstarted)).congr hr htables hepoch fun s hs => ?_
    rcases hcursor with heq | heq
    · exact heq ▸ hs
    · rw [heq] at hs
      cases hs

end Invariant

/-! ## 4. One action

Anything that is not the worker leaves its tables alone, and is handled by one lemma. -/

section Steps

variable {u u' : Upkeep} {trace shown : List VisitMark} {l l' : AdmissionLedger}

theorem history_step {o : Op} (h : ∃ ops, DeliveredFrom D ops ∧ db = reached env ops)
    (hD : ∀ v ∈ o.delivered, v ∈ D) (hok : step env db o = .ok db') :
    ∃ ops, DeliveredFrom D ops ∧ db' = reached env ops := by
  obtain ⟨ops, hops, rfl⟩ := h
  refine ⟨ops ++ [o], fun o' ho' => ?_, ?_⟩
  · rcases List.mem_append.mp ho' with ho' | ho'
    · exact hops o' ho'
    · obtain rfl := List.mem_singleton.mp ho'
      exact hD
  · show db' = run (step env) {} (ops ++ [o])
    rw [run_append, run_cons, run_nil]
    show db' = commit (step env (reached env ops) o) (reached env ops)
    rw [hok, commit_ok]

/-- A release is a transaction of its own. -/
theorem pruned_step {request : QuotaPruneRequest} {outcome : QuotaPruneOutcome}
    (h : pruneQuotaPayloadTx env db request = .ok (db', outcome)) :
    step env db (.pruneQuota request) = .ok db' := by
  unfold step
  dsimp only
  rw [h]
  rfl

theorem history_readies (hcf : CollisionFree D) (hids : FullIds D)
    (h : ∃ ops, DeliveredFrom D ops ∧ db = reached env ops) {o : Op} (hD : ∀ v ∈ o.delivered, v ∈ D)
    (hok : step env db o = .ok db') : Readies db db' := by
  obtain ⟨ops, hops, rfl⟩ := h
  exact step_readies hcf (reached_indexed env hcf hids ops hops).1 o hD hok

/-- What the release of a turn does to the rest. -/
theorem releases_history (hcf : CollisionFree D) (hids : FullIds D)
    (h : ∃ ops, DeliveredFrom D ops ∧ db = reached env ops) (hr : ReleasesAtMostOne env db db') :
    (∃ ops, DeliveredFrom D ops ∧ db' = reached env ops) ∧ Readies db db' := by
  rcases hr with rfl | ⟨request, outcome, hok⟩
  · exact ⟨h, id⟩
  · have hstep := pruned_step hok
    have hD : ∀ v ∈ (Op.pruneQuota request).delivered, v ∈ D := fun v hv => by cases hv
    exact ⟨history_step h hD hstep, history_readies hcf hids h hD hstep⟩

/-- **A transaction of the run**: it ends one way or the other, and if it is not committed the revisions may have
been raised for nothing. -/
theorem UpkeepSound.finish (h : UpkeepSound D env u trace) {d : DemandState} {fate : Fate}
    (hhistory : ∃ ops, DeliveredFrom D ops ∧ db' = reached env ops) (hready : Readies u.db db')
    (hdemands : DemandsSound u.db.retention u.ledger.retentionRevision d) :
    UpkeepSound D env ({ u with ledger := { u.ledger with demands := d } }.finish db' u.tables fate) trace := by
  have hfinished := finish_spec { u with ledger := { u.ledger with demands := d } } db' u.tables fate
    ⟨h.bounded.retention, h.bounded.pressure⟩ hready
  have hr := hfinished.raised
  refine h.other ?_ ⟨hr.retention, hr.rows, hr.pressure, hr.authors, hr.accounting⟩ hfinished.bounded ?_ ?_
    hfinished.epoch (.inl hfinished.cursor)
  · rw [hfinished.db]
    split
    · exact hhistory
    · exact h.history
  · rw [hfinished.demands]
    exact hdemands
  · rw [hfinished.tables, ite_self]

omit [Primitives] in
theorem Raised.ledger (db : Database) (hretention : l'.retentionRevision = l.retentionRevision)
    (hpressure : l.pressureRevision ≤ l'.pressureRevision) : Raised db db l l' :=
  ⟨hretention.ge, fun _ => sameRows_refl _, hpressure, fun _ _ _ => rfl, id⟩

/-- An action that moves only what the ledger holds in memory. -/
theorem UpkeepSound.ledger (h : UpkeepSound D env u trace)
    (hretention : l'.retentionRevision = u.ledger.retentionRevision)
    (hpressure : u.ledger.pressureRevision ≤ l'.pressureRevision) (hbound : l'.pressureRevision ≤ u64Max)
    (hdemands : DemandsSound u.db.retention u.ledger.retentionRevision l'.demands) :
    UpkeepSound D env { u with ledger := l' } trace :=
  h.other h.history (Raised.ledger u.db hretention hpressure) ⟨hretention.trans_le h.bounded.retention, hbound⟩
    hdemands rfl rfl (.inl rfl)

omit [Primitives] in
theorem DemandsSound.remove {r : RetentionIndex} {revision : ℕ} {d : DemandState} (h : DemandsSound r revision d)
    (event : EventId) : DemandsSound r revision { d with entries := d.entries.remove event } := by
  intro event' entry hget
  rw [Table.get_remove] at hget
  split at hget
  · cases hget
  · exact h event' entry hget

theorem insertDemand_sound {r : RetentionIndex} {revision : ℕ} (h : DemandsSound r revision l.demands)
    (config : PayloadAdmissionConfig) (v : VerifiedEvent) (now : Timestamp) :
    DemandsSound r revision (insertDemand l config v now).2.demands := by
  unfold insertDemand
  dsimp only
  split
  · exact h
  split
  · exact h
  split
  · exact h
  · exact h.insert _ _ fun scan hno => by cases hno

theorem insertDemand_frame (l : AdmissionLedger) (config : PayloadAdmissionConfig) (v : VerifiedEvent)
    (now : Timestamp) : (insertDemand l config v now).2.retentionRevision = l.retentionRevision ∧
      (insertDemand l config v now).2.pressureRevision = l.pressureRevision := by
  unfold insertDemand
  dsimp only
  split
  · exact ⟨rfl, rfl⟩
  split
  · exact ⟨rfl, rfl⟩
  split <;> exact ⟨rfl, rfl⟩

variable (env db) in
theorem register_sound {r : RetentionIndex} {revision : ℕ} (h : DemandsSound r revision l.demands)
    (event : EventId) (generation : RetentionGeneration) (now : Timestamp) :
    DemandsSound r revision (registerPayloadDemandWith env db l event generation now).2.demands ∧
      (registerPayloadDemandWith env db l event generation now).2.retentionRevision = l.retentionRevision ∧
      (registerPayloadDemandWith env db l event generation now).2.pressureRevision = l.pressureRevision := by
  unfold registerPayloadDemandWith
  split
  · exact ⟨h, rfl, rfl⟩
  split
  swap
  · exact ⟨h, rfl, rfl⟩
  dsimp only
  have hcurrent : DemandsSound r revision (if l.demands.generation ≠ some generation ∨
      l.demands.config ≠ some l.identity then
        { l.demands.clear with generation := some generation, config := some l.identity }
      else l.demands) := by
    split
    · exact demandsSound_clear r revision l.demands
    · exact h
  have hexpired := hcurrent.retain fun _ e => decide (e.created ≤ now) && decide (now < e.expires)
  split
  · exact ⟨hexpired, rfl, rfl⟩
  split
  · exact ⟨hexpired, rfl, rfl⟩
  · split
    · exact ⟨hexpired, rfl, rfl⟩
    · exact ⟨insertDemand_sound hexpired _ _ now, insertDemand_frame _ _ _ _⟩
  · split
    · exact ⟨hexpired, rfl, rfl⟩
    · exact ⟨insertDemand_sound hexpired _ _ now, insertDemand_frame _ _ _ _⟩
  · exact ⟨hexpired, rfl, rfl⟩

end Steps

/-! ## 5. One step of the worker

A turn makes one visit, either to an author or to the database, and what it finds there is a mark. `MarkSound` is
everything that is known of such a mark, so that the results of section 7 are read off it. -/

/-- **A release by pressure**, and everything that speaks for it. -/
structure Justified (env : Env) (before : List VisitMark) (m : VisitMark) (prune : QuotaPruneRequest) : Prop where
  /-- The scope holds this much, and this is its budget. -/
  measured : ∃ retained config, retainedIn m.state.db m.visit.scope = .ok retained ∧
    m.visit.total = retained + reservedBytes m.state.ledger.state m.visit.scope ∧
    m.state.ledger.state.config = some config ∧ m.visit.high = highWater config m.visit.scope
  above : experimentalLowWater m.visit.high < m.visit.total
  triggered : m.visit.high < m.visit.total ∨ Triggered m.state.epoch m.visit.scope before
  least : ∃ entry e, LeastDue env m.request.generation.policy m.state.db m.visit.scope m.now prune.id entry ∧
    m.state.db.ev.events.get prune.id = some e ∧ e.contentLen ≤ m.request.maxBytes
  released : ∃ db' bytes, pruneQuotaPayloadTx env m.state.db prune = .ok (db', .pruned bytes)
  unclaimed : ∀ event, ¬Claims env m.state.db m.state.ledger (m.state.ledger.demands.expire m.now) m.request
    m.now event

/-- **Why an author was left**, seen from a later visit `m` of the database. -/
inductive Left (env : Env) (m' m : VisitMark) (author : RostraId) : Prop
  /-- It was not above its budget. -/
  | inactive (h : m'.visit.selection = .blocked .inactive) (hle : m'.visit.total ≤ m'.visit.high)
  /-- It has nothing to release, not even by now. -/
  | exhausted (h : m'.visit.selection = .blocked .exhausted)
      (hnone : ∀ id entry, ¬DueIn env m.request.generation.policy m.state.db (some author) m.now id entry)
  /-- Its next victim was larger than the allowance. -/
  | bytes (needed : ℕ) (h : m'.visit.selection = .blocked (.bytes needed)) (hlarge : m'.request.maxBytes < needed)
  | deadline (h : m'.visit.selection = .blocked .deadline)

/-- **An author comes before the database.** There is a visit to it in this incarnation, at the same two revisions,
and the reason for which it was left. -/
structure Considered (env : Env) (before : List VisitMark) (m : VisitMark) (author : RostraId) : Prop where
  visited : ∃ m' ∈ before, m'.state.epoch = m.state.epoch ∧ m'.visit.scope = some author ∧
    m'.state.ledger.pressureRevision = m.state.ledger.pressureRevision ∧
    m'.state.ledger.retentionRevision = m.state.ledger.retentionRevision ∧ Left env m' m author

/-- What is known of every visit of a run. -/
structure MarkSound (env : Env) (before : List VisitMark) (m : VisitMark) : Prop where
  justified : ∀ prune, m.visit.selection = .prune prune → Justified env before m prune
  inactive : m.visit.selection = .blocked .inactive → m.visit.total ≤ m.visit.high
  bytes : ∀ needed, m.visit.selection = .blocked (.bytes needed) → m.request.maxBytes < needed
  considered : m.visit.scope = none → ∀ author ∈ m.state.db.accounting.authors.keys,
    Considered env before m author

section Press

variable {u u' : Upkeep} {trace shown : List VisitMark} {request : PressureRequest} {now : Timestamp}

omit [Primitives] in
theorem lowWater_le (high : ℕ) : experimentalLowWater high ≤ high := by
  unfold experimentalLowWater
  omega

/-- **What one visit finds**, in terms of the visits before it. -/
theorem mark_sound (h : UpkeepSound D env u trace) (hmarks : Machine.Everywhere (MarkSound env) trace)
    (hcf : CollisionFree D) (hids : FullIds D) (hstarted : u.epoch ≠ 0) {visit : PressureVisit} (committed : Bool)
    {turn : PressureTurn} (hturn : pressureStepWith env u.db u.tables u.ledger (u.ledger.demands.expire now) u.epoch
      request u.cursor now = turn) (hvisit : turn.visit = some visit) :
    MarkSound env trace { state := u, request := request, now := now, visit := visit, committed := committed } := by
  obtain ⟨ops, hops, hdb⟩ := h.history
  obtain ⟨hg, hx⟩ := reached_indexed env hcf hids ops hops
  rw [← hdb] at hg hx
  have hk : KeyedBy D u.db.ev := hg.keyed
  have htables := h.tables hstarted
  have hspec := pressureStep_spec request now hk hx hcf (u.ledger.demands.expire now)
    htables.frontiers
  subst hturn
  set turn := pressureStepWith env u.db u.tables u.ledger (u.ledger.demands.expire now) u.epoch request u.cursor now
  have hmade := hspec.visited visit hvisit
  obtain ⟨⟨retained, hretained, htotal⟩, ⟨config, hconfig, hhigh⟩, hflag⟩ := hmade.measures
  have hactive : armed turn.tables u.epoch visit.scope = true ∨ visit.selection = .blocked .inactive := by
    cases hcase : armed turn.tables u.epoch visit.scope with
    | true => exact .inl rfl
    | false => exact .inr (hmade.inactive hcase)
  refine ⟨fun prune hprune => ?_, fun hinactive => ?_, fun needed hneeded => ?_, fun hglobal author hauthor => ?_⟩
  · rcases hactive with hactive | hno
    swap
    · cases hprune.symm.trans hno
    obtain ⟨-, -, -, -, entry, e, hleast, he, hfits⟩ := (hmade.selected hactive).prune prune hprune
    have hwhy : visit.high < visit.total ∨ armed u.tables u.epoch visit.scope = true ∧
        experimentalLowWater visit.high < visit.total := by
      rw [hactive] at hflag
      simpa using hflag.symm
    refine ⟨⟨retained, config, hretained, htotal, hconfig, hhigh⟩, ?_, ?_, ⟨entry, e, hleast, he, hfits⟩, ?_,
      pressureStep_unclaimed hvisit⟩
    · rcases hwhy with hhigh | ⟨-, hlow⟩
      · exact (lowWater_le _).trans_lt hhigh
      · exact hlow
    · rcases hwhy with hhigh | ⟨harmed, -⟩
      · exact .inl hhigh
      · exact .inr (htables.flags _ harmed)
    · rcases hmade.effect with ⟨-, hno⟩ | ⟨prune', bytes, hprune', hok⟩
      · exact absurd hprune (hno prune)
      · cases hprune.symm.trans hprune'
        exact ⟨_, bytes, hok⟩
  · by_contra hhigh
    have harmed : armed turn.tables u.epoch visit.scope = true := by
      rw [hflag]
      simp [Nat.not_le.mp hhigh]
    exact (hmade.selected harmed).active hinactive
  · rcases hactive with hactive | hno
    · exact ((hmade.selected hactive).bytes needed hneeded).1
    · cases hneeded.symm.trans hno
  · obtain ⟨hsettled, hwaiting, hready⟩ := pressureStep_global h.cursor hvisit hglobal
    obtain ⟨m', hm', hepoch, hscope, hp, hr, reason, hblocked, hrests⟩ := hsettled author hauthor
    refine ⟨m', hm', hepoch, hscope, hp, hr, ?_⟩
    obtain ⟨before, after, hsplit⟩ := List.append_of_mem hm'
    have hold := hmarks before m' after hsplit
    cases reason with
    | inactive => exact .inactive hblocked (hold.inactive hblocked)
    | bytes needed => exact .bytes needed hblocked (hold.bytes needed hblocked)
    | deadline => exact .deadline hblocked
    | exhausted =>
      refine .exhausted hblocked fun id entry hdue => ?_
      -- what was skipped then is not due before the retry time, which has not come
      have hi : IndexReady D env u.db request.generation := ⟨hk, hx, selectionReady_state hready⟩
      obtain ⟨hrow, hdueAt⟩ := hdue.row hi hready
      obtain ⟨t, ht, hle⟩ := hrests rfl entry.key (mem_scopeKeys.mpr ⟨id, hrow⟩)
      exact absurd (hle.trans hdueAt) (Nat.not_le.mpr (hwaiting t ht))

/-- A flag that is armed after a turn was armed before it, or the visit of the turn has armed it. -/
theorem triggered_of_turn {turn : PressureTurn}
    (hspec : PressureSpec D env u.db u.tables u.ledger u.epoch request now turn)
    (hflags : ∀ scope, armed u.tables u.epoch scope = true → Triggered u.epoch scope trace) (committed : Bool)
    {scope : Option RostraId}
    (harmed : armed (if committed then turn.tables else u.tables) u.epoch scope = true) :
    Triggered u.epoch scope (trace ++ turn.visit.toList.map fun visit =>
      { state := u, request := request, now := now, visit := visit, committed := committed }) := by
  cases hvisit : turn.visit with
  | none =>
    rw [Option.toList_none, List.map_nil, List.append_nil]
    refine hflags scope ?_
    rw [(hspec.idle hvisit).2, ite_self] at harmed
    exact harmed
  | some visit =>
    have hmade := hspec.visited visit hvisit
    rw [Option.toList_some, List.map_singleton]
    cases committed with
    | false => exact (hflags scope harmed).snoc fun hno => by cases hno
    | true =>
      rw [if_pos rfl] at harmed
      by_cases hsame : scope = visit.scope
      · subst hsame
        have hflag := hmade.measures.flag
        rw [harmed] at hflag
        have hwhy : visit.high < visit.total ∨ armed u.tables u.epoch visit.scope = true ∧
            experimentalLowWater visit.high < visit.total := by simpa using hflag.symm
        rcases hwhy with hhigh | ⟨hold, hlow⟩
        · exact .here rfl rfl rfl hhigh
        · exact (hflags _ hold).snoc fun _ _ _ => hlow
      · rw [hmade.others scope hsame] at harmed
        exact (hflags scope harmed).snoc fun _ _ hscope => absurd hscope.symm hsame

/-- A turn releases one payload at most. -/
theorem turn_releases {turn : PressureTurn}
    (hspec : PressureSpec D env u.db u.tables u.ledger u.epoch request now turn) :
    ReleasesAtMostOne env u.db turn.db := by
  cases hvisit : turn.visit with
  | none => exact .inl (hspec.idle hvisit).1
  | some visit =>
    rcases (hspec.visited visit hvisit).effect with ⟨hsame, -⟩ | ⟨prune, bytes, -, hok⟩
    · exact .inl hsame
    · exact .inr ⟨prune, _, hok⟩

/-- **One step of the worker keeps the invariant**, whether or not it is committed. The cursor moves on in any
case. -/
theorem press_sound (h : UpkeepSound D env u trace) (hcf : CollisionFree D) (hids : FullIds D)
    (hstarted : u.epoch ≠ 0) (fate : Fate) {turn : PressureTurn}
    (hturn : pressureStepWith env u.db u.tables u.ledger (u.ledger.demands.expire now) u.epoch request u.cursor
      now = turn) :
    UpkeepSound D env ({ u with
        ledger := { u.ledger with demands := u.ledger.demands.expire now }
        cursor := turn.cursor }.finish turn.db turn.tables fate)
      (trace ++ turn.visit.toList.map fun visit =>
        { state := u, request := request, now := now, visit := visit, committed := u.takes turn.db fate }) := by
  obtain ⟨ops, hops, hdb⟩ := h.history
  obtain ⟨hg, hx⟩ := reached_indexed env hcf hids ops hops
  rw [← hdb] at hg hx
  have htables := h.tables hstarted
  have hspec := pressureStep_spec request now hg.keyed hx hcf
    (u.ledger.demands.expire now) htables.frontiers
  rw [hturn] at hspec
  set marks : List VisitMark := turn.visit.toList.map fun visit =>
    { state := u, request := request, now := now, visit := visit, committed := u.takes turn.db fate } with hmarks
  obtain ⟨hhistory, hready⟩ := releases_history hcf hids h.history (turn_releases hspec)
  -- the cursor first, still in the old state
  have hcursor : CursorOf (trace ++ marks) u turn.cursor := by
    have hold := CursorSound.congr marks h.cursor (Raised.refl u.db u.ledger) rfl
    have hpass := pressureStep_pass request now hg.keyed hx hcf (u.ledger.demands.expire now)
      htables.frontiers hold (fun _ _ _ hs => SettledIn.sooner hs) ?_
    · rw [hturn] at hpass
      exact hpass
    · rw [hturn]
      intro visit author reason retry hvisit hscope hblocked hrests
      refine ⟨{ state := u, request := request, now := now, visit := visit, committed := u.takes turn.db fate },
        ?_, rfl, hscope, rfl, rfl, reason, hblocked, hrests⟩
      rw [hmarks, hvisit]
      simp
  have hfinished := finish_spec { u with
      ledger := { u.ledger with demands := u.ledger.demands.expire now }
      cursor := turn.cursor } turn.db turn.tables fate ⟨h.bounded.retention, h.bounded.pressure⟩ hready
  generalize ({ u with
      ledger := { u.ledger with demands := u.ledger.demands.expire now }
      cursor := turn.cursor } : Upkeep).finish turn.db turn.tables fate = u' at hfinished ⊢
  have hdb' : u'.db = if u.takes turn.db fate then turn.db else u.db := hfinished.db
  have htables' : u'.tables = if u.takes turn.db fate then turn.tables else u.tables := hfinished.tables
  have hepoch' : u'.epoch = u.epoch := hfinished.epoch
  have hr : Raised u.db u'.db u.ledger u'.ledger := ⟨hfinished.raised.retention, hfinished.raised.rows,
    hfinished.raised.pressure, hfinished.raised.authors, hfinished.raised.accounting⟩
  refine ⟨?_, hfinished.bounded, ?_, ?_, ?_, fun _ => ⟨?_, ?_⟩⟩
  · rw [hdb']
    split
    · exact hhistory
    · exact h.history
  · rw [hfinished.demands]
    exact (h.demands.retain _).congr hr
  · rw [htables']
    split
    · intro author row hrow
      rcases hspec.rows author row hrow with hold | hnew
      · obtain ⟨record, hrecord, hle⟩ := h.rows author row hold
        have hepoch := hspec.record
        rw [hrecord] at hepoch
        obtain ⟨record', hrecord', heq'⟩ := Option.map_eq_some_iff.mp hepoch
        exact ⟨record', hrecord', heq' ▸ hle⟩
      · rw [← hspec.record] at hnew
        obtain ⟨record', hrecord', heq'⟩ := Option.map_eq_some_iff.mp hnew
        exact ⟨record', hrecord', heq'.ge⟩
    · exact h.rows
  · have hmoved := CursorSound.congr [] hcursor hr hepoch'
    rw [List.append_nil] at hmoved
    exact hfinished.cursor ▸ hmoved
  · refine PressureSound.congr ?_ hr
    rw [hepoch', hfinished.cursor, htables']
    split
    · exact hspec.sound
    · exact ⟨htables.frontiers.authors, hspec.sound.global⟩
  · intro scope harmed
    rw [hepoch', htables'] at harmed
    rw [hepoch']
    exact triggered_of_turn hspec htables.flags _ harmed

end Press

/-! ## 6. Runs

The induction over the actions of a run. -/

section Runs

variable {u u' : Upkeep} {trace shown : List VisitMark}

/-- **A new incarnation**: no row and no flag of an earlier one is its own, so nothing has to be known of them. -/
theorem initialized_sound (h : UpkeepSound D env u trace) {t : PressureTables} {epoch : ℕ}
    (hok : initializePressure u.tables = .ok (t, epoch)) :
    UpkeepSound D env { u with tables := t, epoch := epoch, cursor := {} } trace := by
  unfold initializePressure checkedAdd at hok
  split at hok
  swap
  · cases hok
  cases hok
  have hfresh : ∀ author row, u.tables.authors.get author = some row →
      row.epoch ≤ (u.tables.state.getD {}).epoch := by
    intro author row hrow
    obtain ⟨record, hrecord, hle⟩ := h.rows author row hrow
    rw [hrecord]
    exact hle
  refine ⟨h.history, h.bounded, h.demands, fun author row hrow => ?_, cursorSound_empty, fun _ => ⟨?_, ?_⟩⟩
  · exact ⟨_, rfl, (hfresh author row hrow).trans (Nat.le_succ _)⟩
  · refine ⟨fun author row hrow hepoch => ?_, fun s hs => by cases hs⟩
    have := hfresh author row hrow
    dsimp only at hepoch
    omega
  · intro scope harmed
    exfalso
    cases scope with
    | none => simp [armed] at harmed
    | some author =>
      obtain ⟨row, hrow, hepoch⟩ : ∃ row, u.tables.authors.get author = some row ∧
          row.epoch = (u.tables.state.getD {}).epoch + 1 := by
        unfold armed at harmed
        obtain ⟨row, hfilter, -⟩ := (Option.any_eq_true _ _).mp harmed
        obtain ⟨hrow, hepoch⟩ := Option.filter_eq_some_iff.mp hfilter
        exact ⟨row, hrow, by simpa using hepoch⟩
      have := hfresh author row hrow
      omega

/-- **One action of the run**, of the worker or of anybody else. -/
theorem upkeepStep_sound (hcf : CollisionFree D) (hids : FullIds D) {a : UpkeepAct}
    (hD : ∀ o fate, a = .write o fate → ∀ v ∈ o.delivered, v ∈ D)
    (h : UpkeepSound D env u trace ∧ Machine.Everywhere (MarkSound env) trace)
    (hstep : upkeepStep env u a = some (u', shown)) :
    UpkeepSound D env u' (trace ++ shown) ∧ Machine.Everywhere (MarkSound env) (trace ++ shown) := by
  obtain ⟨h, hmarks⟩ := h
  -- an action that shows nothing
  have hsilent : ∀ {u'}, UpkeepSound D env u' trace →
      UpkeepSound D env u' (trace ++ []) ∧ Machine.Everywhere (MarkSound env) (trace ++ []) := by
    intro u' hu
    rw [List.append_nil]
    exact ⟨hu, hmarks⟩
  cases a with
  | write o fate =>
    have hdelivered := hD o fate rfl
    simp only [upkeepStep] at hstep
    split at hstep
    · next db' hok =>
      cases hstep
      exact hsilent (h.finish (history_step h.history hdelivered hok)
        (history_readies hcf hids h.history hdelivered hok) h.demands)
    · cases hstep
      exact hsilent (h.finish h.history id h.demands)
  | leases state pressureBumps =>
    cases hstep
    exact hsilent (h.ledger rfl (le_min h.bounded.pressure (Nat.le_add_right _ _)) (min_le_left _ _) h.demands)
  | install config =>
    cases hstep
    exact hsilent (h.ledger rfl le_rfl h.bounded.pressure h.demands)
  | forget keep =>
    cases hstep
    exact hsilent (h.ledger rfl le_rfl h.bounded.pressure (h.demands.retain _))
  | clearDemands =>
    cases hstep
    exact hsilent (h.ledger rfl le_rfl h.bounded.pressure (demandsSound_clear _ _ _))
  | register event generation now =>
    cases hstep
    obtain ⟨hdemands, hretention, hpressure⟩ := register_sound env u.db h.demands event generation now
    exact hsilent (h.ledger hretention hpressure.ge (hpressure.trans_le h.bounded.pressure) hdemands)
  | cloneOwner id =>
    simp only [upkeepStep] at hstep
    split at hstep
    · cases hstep
      exact hsilent (h.ledger rfl le_rfl h.bounded.pressure h.demands)
    · cases hstep
  | releaseOwner id =>
    simp only [upkeepStep] at hstep
    split at hstep
    · cases hstep
      exact hsilent (h.ledger rfl le_rfl h.bounded.pressure h.demands)
    · cases hstep
  | dropOwner event id =>
    simp only [upkeepStep] at hstep
    split at hstep
    · cases hstep
      refine hsilent ?_
      unfold AdmissionLedger.dropOwner
      split
      · exact h.ledger rfl le_rfl h.bounded.pressure (h.demands.remove event)
      · exact h.ledger rfl le_rfl h.bounded.pressure h.demands
    · cases hstep
  | preempt request now fate =>
    cases hstep
    obtain ⟨ops, hops, hdb⟩ := h.history
    obtain ⟨hg, hx⟩ := reached_indexed env hcf hids ops hops
    rw [← hdb] at hg hx
    have hturn := (preempt_spec hg.keyed hx h.demands request now).frame
    obtain ⟨hhistory, hready⟩ := releases_history hcf hids h.history hturn.db
    exact hsilent (h.finish hhistory hready hturn.sound)
  | press request now fate =>
    simp only [upkeepStep] at hstep
    split at hstep
    · split at hstep
      · cases hstep
        exact hsilent h
      · next tables' epoch hok =>
        split at hstep
        · cases hstep
          exact hsilent (initialized_sound h hok)
        · cases hstep
          exact hsilent h
    · next hstarted =>
      cases hstep
      refine ⟨press_sound h hcf hids hstarted fate rfl, ?_⟩
      generalize hturn : pressureStepWith env u.db u.tables u.ledger (u.ledger.demands.expire now) u.epoch request
        u.cursor now = turn
      cases hvisit : turn.visit with
      | none =>
        show Machine.Everywhere (MarkSound env) (trace ++ [])
        rw [List.append_nil]
        exact hmarks
      | some visit => exact hmarks.snoc (mark_sound h hmarks hcf hids hstarted _ hturn hvisit)
  | newRunner =>
    cases hstep
    exact hsilent (h.other h.history (Raised.refl _ _) h.bounded h.demands rfl rfl (.inr rfl))
  | restart =>
    cases hstep
    refine hsilent ⟨h.history, ⟨Nat.zero_le _, Nat.zero_le _⟩, fun event entry hget => ?_, h.rows, cursorSound_empty,
      fun hno => absurd rfl hno⟩
    simp at hget

variable (env) in
/-- **Every run has the invariant**, and every visit in it is sound. -/
theorem upkeep_sound (hcf : CollisionFree D) (hids : FullIds D) (acts : List UpkeepAct)
    (hD : UpkeepDeliveredFrom D acts) :
    UpkeepSound D env (upkeep env acts).1 (upkeep env acts).2 ∧
      Machine.Everywhere (MarkSound env) (upkeep env acts).2 := by
  refine Machine.run_invariant (J := fun u trace => UpkeepSound D env u trace ∧
    Machine.Everywhere (MarkSound env) trace) ?_ acts fun a ha u trace u' shown h hstep => ?_
  · refine ⟨⟨⟨[], fun o ho => (by cases ho), rfl⟩, ⟨Nat.zero_le _, Nat.zero_le _⟩, fun event entry hget => ?_,
      fun author row hrow => ?_, cursorSound_empty, fun hno => absurd rfl hno⟩, .nil⟩
    · simp at hget
    · simp at hrow
  · refine upkeepStep_sound hcf hids (fun o fate heq => ?_) h hstep
    subst heq
    exact hD o fate ha

/-! ## 7. Results

Three properties of the same invariant: about releases for an intent, about releases by pressure, and about the
order of the scopes. -/

/-- **Preemption respects the ranks**, after any run and in any interleaving. A victim is the least payload of the
scope that blocks the demand, and ranks below it; a demand is given up only if everything in its scope ranks above
it; and a turn releases one payload at most, in either case. -/
theorem preemption_respects_rank (env : Env) (hcf : CollisionFree D) (hids : FullIds D) (acts : List UpkeepAct)
    (hD : UpkeepDeliveredFrom D acts) (request : DemandRequest) (now : Timestamp) :
    TurnSpec env (upkeep env acts).1.db (upkeep env acts).1.ledger request now
      (preemptPayloadDemandBoundWith env (upkeep env acts).1.db (upkeep env acts).1.ledger request now) := by
  have h := (upkeep_sound env hcf hids acts hD).1
  obtain ⟨ops, hops, hdb⟩ := h.history
  obtain ⟨hg, hx⟩ := reached_indexed env hcf hids ops hops
  rw [← hdb] at hg hx
  exact preempt_spec hg.keyed hx h.demands request now

/-- **Pressure releases nothing without need.** For every visit of a run that releases a payload, the history of
the visits before it and the state in which it was made justify the release (`Justified`). -/
theorem pressure_justified (env : Env) (hcf : CollisionFree D) (hids : FullIds D) (acts : List UpkeepAct)
    (hD : UpkeepDeliveredFrom D acts) :
    Machine.Everywhere (fun before m => ∀ prune, m.visit.selection = .prune prune → Justified env before m prune)
      (upkeep env acts).2 :=
  fun before m after hsplit =>
    ((upkeep_sound env hcf hids acts hD).2 before m after hsplit).justified

/-- **The authors come first.** Whenever the database is visited, every accounted author was visited before, by
this incarnation and at these revisions, and was left for a reason that still holds. -/
theorem authors_before_database (env : Env) (hcf : CollisionFree D) (hids : FullIds D) (acts : List UpkeepAct)
    (hD : UpkeepDeliveredFrom D acts) :
    Machine.Everywhere (fun before m => m.visit.scope = none →
      ∀ author ∈ m.state.db.accounting.authors.keys, Considered env before m author) (upkeep env acts).2 :=
  fun before m after hsplit =>
    ((upkeep_sound env hcf hids acts hD).2 before m after hsplit).considered

end Runs

end Machine

/-! ## 8. Samples

A run with a stored post and one that is wanted, and a run of the worker through both authors to the database. -/

section Sample

attribute [local instance] Primitives.reference

def samplePressureBudgets (bytes : ℕ) : PayloadAdmissionConfig where
  databaseBytes := bytes
  authorBytes := 8
  overrides := ∅
  inFlightCount := 2
  inFlightBytes := 64
  inFlightCountLe := two_le_maintenanceMax

/-- A post is stored and indexed, another one is announced, and the accounting is complete. -/
def sampleStored : List Op :=
  sampleIndexing 5 ++ [.ingest [.envelope (.ofEvent sampleWaiting) 6 .local], .promoteRetention (.trusted 20) 100,
    .rebuildAccounting 20]

/-- Then budgets are installed. -/
def sampleUpkeep (bytes : ℕ) (rest : List UpkeepAct) : List UpkeepAct :=
  sampleStored.map (fun o => .write o {}) ++ .install (some (samplePressureBudgets bytes)) :: rest

theorem sampleUpkeep_delivered (bytes : ℕ) {rest : List UpkeepAct} (h : ∀ o fate, .write o fate ∉ rest) :
    UpkeepDeliveredFrom (envelopesOf sampleStored) (sampleUpkeep bytes rest) := by
  intro o fate hmem v hv
  rcases List.mem_append.mp hmem with hmem | hmem
  · obtain ⟨o', ho', heq⟩ := List.mem_map.mp hmem
    cases heq
    exact List.mem_flatMap.mpr ⟨o, ho', hv⟩
  · rcases List.mem_cons.mp hmem with hno | hmem
    · cases hno
    · exact absurd hmem (h o fate)

theorem sampleStored_collisionFree : CollisionFree (envelopesOf sampleStored) :=
  collisionFree_envelopesOf (by decide)

theorem sampleStored_fullIds : FullIds (envelopesOf sampleStored) := by
  have hall : ∀ v ∈ sampleStored.flatMap Op.delivered,
      (ofLex v.eventId).1 < 2 ^ 128 ∧ (ofLex v.eventId).2 < 2 ^ 128 := by decide
  exact hall

def sampleGeneration : RetentionGeneration := ⟨samplePolicy, sampleEnv.selfId⟩

/-- One intent for the announced payload. -/
def sampleWanting : List UpkeepAct := sampleUpkeep 3 [.register (computeId sampleWaiting) sampleGeneration 30]

/-- The stored post is released for the announced one, which ranks above it. -/
theorem preemption_respects_rank_sampleWanting :
    let u := (upkeep sampleEnv sampleWanting).1
    let request : DemandRequest := ⟨sampleGeneration, some 1, 10, 100, 10⟩
    (preemptPayloadDemandBoundWith sampleEnv u.db u.ledger request 30).reply =
        .ok (.pruned (computeId sampleWaiting) (computeId samplePost) 2) ∧
      TurnSpec sampleEnv u.db u.ledger request 30
        (preemptPayloadDemandBoundWith sampleEnv u.db u.ledger request 30) :=
  ⟨by decide +kernel, preemption_respects_rank sampleEnv sampleStored_collisionFree sampleStored_fullIds
    sampleWanting (sampleUpkeep_delivered 3 (by simp)) _ _⟩

/-- The worker starts, finds both authors below their budget, and ends the pass; then it visits the database. -/
def samplePressing : List UpkeepAct :=
  let request : PressureRequest := ⟨sampleGeneration, some 1, 100, 10⟩
  sampleUpkeep 1 (List.replicate 5 (.press request 30 {}))

theorem samplePressing_delivered : UpkeepDeliveredFrom (envelopesOf sampleStored) samplePressing :=
  sampleUpkeep_delivered 1 (by simp)

/-- A release for the sake of the database. -/
def VisitMark.releasesGlobal (m : VisitMark) : Bool :=
  m.visit.scope.isNone && match m.visit.selection with
    | .prune _ => true
    | _ => false

theorem VisitMark.releasesGlobal_iff {m : VisitMark} (h : m.releasesGlobal = true) :
    m.visit.scope = none ∧ ∃ prune, m.visit.selection = .prune prune := by
  unfold releasesGlobal at h
  simp only [Bool.and_eq_true, Option.isNone_iff_eq_none] at h
  refine ⟨h.1, ?_⟩
  cases hselection : m.visit.selection with
  | prune prune => exact ⟨prune, rfl⟩
  | advanced =>
    rw [hselection] at h
    cases h.2
  | blocked reason =>
    rw [hselection] at h
    cases h.2

/-- Its last visit releases the stored post, whose author is accounted. -/
theorem samplePressing_releases : ∃ before m prune, (upkeep sampleEnv samplePressing).2 = before ++ [m] ∧
    m.visit.scope = none ∧ m.visit.selection = .prune prune ∧
    toLex (1, 1) ∈ m.state.db.accounting.authors.keys := by
  have hlast : ((upkeep sampleEnv samplePressing).2.getLast?.any fun m =>
      m.releasesGlobal && decide (toLex (1, 1) ∈ m.state.db.accounting.authors.keys)) = true := by decide +kernel
  obtain ⟨m, hm, hboth⟩ := (Option.any_eq_true _ _).mp hlast
  obtain ⟨before, hsplit⟩ := List.getLast?_eq_some_iff.mp hm
  simp only [Bool.and_eq_true, decide_eq_true_eq] at hboth
  obtain ⟨hscope, prune, hprune⟩ := VisitMark.releasesGlobal_iff hboth.1
  exact ⟨before, m, prune, hsplit, hscope, hprune, hboth.2⟩

/-- The last visit of the run releases a payload, and is justified by what came before it. -/
theorem pressure_justified_samplePressing : ∃ before m prune,
    (upkeep sampleEnv samplePressing).2 = before ++ [m] ∧ m.visit.selection = .prune prune ∧
      Justified sampleEnv before m prune := by
  obtain ⟨before, m, prune, hsplit, -, hprune, -⟩ := samplePressing_releases
  exact ⟨before, m, prune, hsplit, hprune, pressure_justified sampleEnv sampleStored_collisionFree
    sampleStored_fullIds samplePressing samplePressing_delivered before m [] hsplit prune hprune⟩

/-- Its visit to the database comes after those to both authors. -/
theorem authors_before_database_samplePressing : ∃ before m,
    (upkeep sampleEnv samplePressing).2 = before ++ [m] ∧ m.visit.scope = none ∧
      Considered sampleEnv before m (toLex (1, 1)) := by
  obtain ⟨before, m, prune, hsplit, hscope, -, hauthor⟩ := samplePressing_releases
  exact ⟨before, m, hsplit, hscope, authors_before_database sampleEnv sampleStored_collisionFree
    sampleStored_fullIds samplePressing samplePressing_delivered before m [] hsplit hscope _ hauthor⟩

end Sample

end Rostra.Db
