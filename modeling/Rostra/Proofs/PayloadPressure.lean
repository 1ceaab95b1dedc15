/-
# One step of general pressure

What a visit of `PressureWorker::step` may conclude, in a state whose frontiers are sound.

* `select_spec`: a candidate that is taken is the least of its scope that may be released and fits the
  allowance; a scope that is left as exhausted has nothing to release, and one that is left for its bytes has a
  least payload that is too large.
* `demandsBlock_spec`: the visit takes place only when no live intent fits or owns what was freed.
* `visitScope_spec` and `pressureStep_spec` put the pieces together with the frontiers that are saved
  (`PressureSound`) and the flag of the visited scope (`armed`).
* `pressureStep_pass` is about the pass over the authors: who is behind the cursor was left for a reason.

The worker is written to do little in each step and to remember how far it came, so nearly everything here is about
what is remembered. There are three memories with three lifetimes: the frontier of a scope, which is stored and
belongs to an incarnation of the process and to revisions of the index; the flag of a scope, stored as well; and
the cursor of the pass over the authors, which lives in memory only. Each is dropped when it might be outdated, and
the statements say what it is worth while it is not.
-/
import Rostra.Proofs.PayloadDemand

namespace Rostra.Db

open Rostra Outcome

variable [Primitives] {D : Set VerifiedEvent} {env : Env} {db : Database} {l : AdmissionLedger}
  {request : PressureRequest} {now : Timestamp} {revision : ℕ} {scope : Option RostraId}

/-! ## 1. Frontiers that walk to the end

A frontier is sound if nothing behind it was due when it passed (`Lib.Frontier`). To conclude that a scope has
nothing to release, the walk has to be known to end at the end of the scope. -/

/-- A frontier of the worker: what it says about the end of the scope and about the next row is true. -/
structure WalkSound (D : Set VerifiedEvent) (r : RetentionIndex) (revision : ℕ) (s : DemandScan) : Prop
    extends ScanSound r revision s where
  done : s.revision = revision → s.exhausted = true → Table.nextAfter (scopeKeys r s.author) s.after = none
  large : s.revision = revision → ∀ bytes, s.blockedBytes = some bytes → ∃ key v,
    Table.nextAfter (scopeKeys r s.author) s.after = some key ∧ scopeRow r s.author key = some v.id ∧ v ∈ D ∧
      v.event.contentLen = bytes ∧ dueAt r s.author key ≤ s.observed

/-- The same for one that was brought up to date. -/
structure WalkReady (D : Set VerifiedEvent) (r : RetentionIndex) (revision : ℕ) (scope : Option RostraId)
    (now : Timestamp) (s : DemandScan) : Prop extends ScanReady r revision scope now s where
  done : s.exhausted = true → Table.nextAfter (scopeKeys r scope) s.after = none
  large : ∀ bytes, s.blockedBytes = some bytes → ∃ key v,
    Table.nextAfter (scopeKeys r scope) s.after = some key ∧ scopeRow r scope key = some v.id ∧ v ∈ D ∧
      v.event.contentLen = bytes ∧ dueAt r scope key ≤ now
  observed : s.observed = now

section Walks

variable {r r' : RetentionIndex} {revision' : ℕ} {s : DemandScan}

theorem WalkReady.sound (h : WalkReady D r revision scope now s) : WalkSound D r revision s := by
  refine ⟨h.toScanReady.sound, fun _ hdone => ?_, fun _ bytes hbytes => ?_⟩
  · rw [h.author]
    exact h.done hdone
  · rw [h.author, h.observed]
    exact h.large bytes hbytes

theorem walkReady_new (D : Set VerifiedEvent) (r : RetentionIndex) (revision : ℕ) (scope : Option RostraId)
    (now : Timestamp) : WalkReady D r revision scope now (.new revision scope now) :=
  ⟨scanReady_new r revision scope now, fun h => (by cases h), fun _ h => (by cases h), rfl⟩

theorem WalkSound.prepare (h : WalkSound D r revision s) (scope : Option RostraId) (now : Timestamp) :
    WalkReady D r revision scope now (s.prepare revision scope now) := by
  have hscan := h.toScanSound.prepare scope now
  unfold DemandScan.prepare at hscan ⊢
  dsimp only at hscan ⊢
  split
  · exact walkReady_new D r revision scope now
  · next hstale =>
    rw [if_neg hstale] at hscan
    simp only [Bool.or_eq_true, decide_eq_true_eq, not_or, not_not, not_lt] at hstale
    obtain ⟨⟨⟨hrevision, rfl⟩, hobserved⟩, -⟩ := hstale
    refine ⟨hscan, fun hdone => h.done hrevision hdone, fun bytes hbytes => ?_, rfl⟩
    obtain ⟨key, v, hnext, hrow, hv, hlen, hdue⟩ := h.large hrevision bytes hbytes
    exact ⟨key, v, hnext, hrow, hv, hlen, hdue.trans hobserved⟩

theorem WalkSound.congr (h : WalkSound D r revision s) (hle : revision ≤ revision')
    (hrows : revision' = revision → sameRows r r' = true) : WalkSound D r' revision' s := by
  have hsame : s.revision = revision' → s.revision = revision ∧ sameRows r r' = true := by
    intro heq
    have hrevision : revision' = revision := le_antisymm (heq ▸ h.known) hle
    exact ⟨heq.trans hrevision, hrows hrevision⟩
  refine ⟨h.toScanSound.congr hle hrows, fun heq hdone => ?_, fun heq bytes hbytes => ?_⟩
  · obtain ⟨hrevision, hr⟩ := hsame heq
    rw [scopeKeys_congr hr]
    exact h.done hrevision hdone
  · obtain ⟨hrevision, hr⟩ := hsame heq
    rw [scopeKeys_congr hr, scopeRow_congr hr, dueAt_congr hr]
    exact h.large hrevision bytes hbytes

end Walks

/-! ## 2. The selection

The selection walks from the frontier over the rows of the scope: one that may not be released now is skipped, and
the first one that may be ends the walk, whether or not it fits the allowance. -/

/-- **What a selection says about its scope.** A candidate that was selected is the least one that is due, and fits
what may be released; in a scope that is exhausted none is due; and one that is blocked for its bytes has a least
one that is too long. -/
structure SelectionSpec (env : Env) (db : Database) (request : PressureRequest) (now : Timestamp)
    (scope : Option RostraId) (selection : PressureSelection) : Prop where
  prune : ∀ prune, selection = .prune prune →
    prune.target = .processed ∧ prune.clock = .trusted now ∧ prune.policy = request.generation.policy ∧
    prune.reason = (if scope.isSome then .authorQuota else .globalQuota) ∧
    ∃ entry e, LeastDue env request.generation.policy db scope now prune.id entry ∧
      db.ev.events.get prune.id = some e ∧ e.contentLen ≤ request.maxBytes
  exhausted : selection = .blocked .exhausted →
    ∀ id entry, ¬DueIn env request.generation.policy db scope now id entry
  bytes : ∀ needed, selection = .blocked (.bytes needed) → request.maxBytes < needed ∧
    ∃ id entry e, LeastDue env request.generation.policy db scope now id entry ∧
      db.ev.events.get id = some e ∧ e.contentLen = needed
  active : selection ≠ .blocked .inactive

theorem SelectionSpec.of_other {selection : PressureSelection} (hprune : ∀ prune, selection ≠ .prune prune)
    (hexhausted : selection ≠ .blocked .exhausted) (hbytes : ∀ needed, selection ≠ .blocked (.bytes needed))
    (hactive : selection ≠ .blocked .inactive) : SelectionSpec env db request now scope selection :=
  ⟨fun prune h => absurd h (hprune prune), fun h => absurd h hexhausted,
    fun needed h => absurd h (hbytes needed), hactive⟩

/-- The visited scope keeps its flag and has a frontier that can be walked on; one that is left as exhausted
knows when to come back. -/
structure ScopeKept (D : Set VerifiedEvent) (r : RetentionIndex) (revision : ℕ) (scope : Option RostraId)
    (now : Timestamp) (a a' : AuthorPressure) (selection : PressureSelection) : Prop where
  epoch : a'.epoch = a.epoch
  active : a'.active = a.active
  scan : ∀ s, a'.scan = some s → WalkReady D r revision scope now s
  rests : selection = .blocked .exhausted → ∀ key ∈ scopeKeys r scope,
    ∃ t, a'.scan.bind (·.retryAt) = some t ∧ t ≤ dueAt r scope key

variable {a : AuthorPressure} {s : DemandScan} {key : ℕ} {id : ShortEventId}

/-- **One candidate.** -/
theorem selectRow_spec (hi : IndexReady D env db request.generation)
    (hready : retentionSelectionReadyTx db.retention request.generation now = true)
    (h : WalkReady D db.retention revision scope now s)
    (hfresh : s.exhausted = false) (hnext : Table.nextAfter (scopeKeys db.retention scope) s.after = some key)
    (hrow : scopeRow db.retention scope key = some id) :
    Ensures (selectRow env db request now scope a s key id) (fun out =>
      ScopeKept D db.retention revision scope now a out.1 out.2 ∧
      SelectionSpec env db request now scope out.2)
      (fun _ => True) := by
  obtain ⟨e, entry, he, hid, hcurrent, hderived, hat⟩ := hi.visited hrow now
  have hcomputed : (VerifiedEvent.ofEvent e).eventId = computeId e := rfl
  unfold selectRow
  rw [he]
  dsimp only
  rw [hcomputed, hcurrent]
  by_cases hdue : dueAt db.retention scope key ≤ now
  · obtain ⟨row, hkey, hleast⟩ := h.leastDue hi hready hnext hrow hdue
    simp only [hdue, decide_true]
    have hv : (VerifiedEvent.ofEvent e).id = id := hid
    dsimp only [bind, Except.bind]
    rw [if_neg (by simp)]
    split
    · next hlarge =>
      refine ⟨⟨rfl, rfl, fun s' hs' => ?_, fun hno => (by cases hno)⟩, ?_⟩
      · cases hs'
        refine ⟨⟨h.revision, h.author, h.passed, h.waiting⟩, h.done, fun bytes hbytes => ?_, h.observed⟩
        cases hbytes
        exact ⟨key, .ofEvent e, hnext, hv ▸ hrow, hi.keyed.mem he, rfl, hdue⟩
      · refine ⟨fun _ hno => (by cases hno), fun hno => (by cases hno), fun needed hneeded => ?_, by simp⟩
        cases hneeded
        exact ⟨hlarge, id, row, e, hleast, he, rfl⟩
    · next hfits =>
      refine ⟨⟨rfl, rfl, fun s' hs' => ?_, fun hno => (by cases hno)⟩, ?_⟩
      · cases hs'
        exact h
      · refine ⟨fun prune hprune => ?_, fun hno => (by cases hno), fun _ hno => (by cases hno), by simp⟩
        cases hprune
        refine ⟨rfl, rfl, rfl, rfl, row, e, ?_, ?_, Nat.not_lt.mp hfits⟩
        · dsimp only
          rw [hv]
          exact hleast
        · dsimp only
          rw [hv]
          exact he
  · have hlater : now < dueAt db.retention scope key := Nat.not_le.mp hdue
    simp only [hdue, decide_false]
    dsimp only [bind, Except.bind]
    rw [if_pos (by simp), hderived]
    dsimp only
    rw [hat, if_pos hlater]
    have hskip := h.toScanReady.skip hnext hlater
    refine ⟨⟨rfl, rfl, fun s' hs' => ?_, fun hno => (by cases hno)⟩, .of_other (by simp) (by simp) (by simp) (by simp)⟩
    cases hs'
    refine ⟨hskip, fun hdone => ?_, fun bytes hbytes => ?_, h.observed⟩
    · exact absurd (hfresh.symm.trans hdone) (by simp)
    · -- the row that was too large is due by now
      obtain ⟨key', v, hnext', -, -, -, hdue'⟩ := h.large bytes hbytes
      obtain rfl := Option.some.inj (hnext.symm.trans hnext')
      exact absurd hdue' hdue

/-- **The selection**, from wherever the frontier was left. The induction is on the looks at the clock, each of
which covers one row. -/
theorem select_spec (hi : IndexReady D env db request.generation)
    (hready : retentionSelectionReadyTx db.retention request.generation now = true) (hcf : CollisionFree D)
    (hsound : ∀ s, a.scan = some s → WalkSound D db.retention revision s) (looks : ℕ) :
    Ensures (select env db request now revision scope looks a) (fun out =>
      ScopeKept D db.retention revision scope now a out.1 out.2 ∧
      SelectionSpec env db request now scope out.2)
      (fun _ => True) := by
  have hstart : WalkSound D db.retention revision (a.scan.getD (.new revision scope now)) := by
    cases hscan : a.scan with
    | none => exact (walkReady_new D db.retention revision scope now).sound
    | some s => exact hsound s hscan
  have h := hstart.prepare scope now
  unfold select
  dsimp only
  generalize (a.scan.getD (.new revision scope now)).prepare revision scope now = s at h
  have hkept : ∀ selection, (selection = .blocked .exhausted → Table.nextAfter (scopeKeys db.retention scope)
      s.after = none) → ScopeKept D db.retention revision scope now a { a with scan := some s } selection :=
    fun selection hend => ⟨rfl, rfl, fun s' hs' => (by cases hs'; exact h), fun hselection key hkey =>
      h.passed key hkey (Table.passed_of_nextAfter_none (hend hselection) hkey)⟩
  split
  · next hdone =>
    refine ⟨hkept _ fun _ => h.done hdone, fun _ hno => (by cases hno), fun _ => ?_, fun _ hno => (by cases hno),
      by simp⟩
    exact h.noneDue hi hready (h.done hdone)
  next hfresh =>
  split
  · next bytes hbytes =>
    obtain ⟨hblocked, hlarge⟩ := Option.filter_eq_some_iff.mp hbytes
    obtain ⟨key, v, hnext, hrow, hv, hlen, hdue⟩ := h.large bytes hblocked
    obtain ⟨entry, -, hleast⟩ := h.leastDue hi hready hnext hrow hdue
    refine ⟨hkept _ fun hno => (by cases hno), fun _ hno => (by cases hno), fun hno => (by cases hno),
      fun needed hneeded => ?_, by simp⟩
    cases hneeded
    -- the stored event is the one whose length was noted
    obtain ⟨e, -, he, -⟩ := hi.visited hrow now
    obtain ⟨w, hw, hwid, rfl⟩ := hi.keyed _ _ he
    obtain rfl := hcf hw hv hwid
    exact ⟨by simpa using hlarge, w.id, entry, w.event, hleast, he, hlen⟩
  split
  · exact ⟨hkept _ fun hno => (by cases hno), .of_other (by simp) (by simp) (by simp) (by simp)⟩
  split
  · next hnone =>
    have hend := nextTx_none hnone
    rw [h.author] at hend
    refine ⟨⟨rfl, rfl, fun s' hs' => ?_, fun _ key hkey => ?_⟩, fun _ hno => (by cases hno), fun _ => ?_,
      fun _ hno => (by cases hno), by simp⟩
    · cases hs'
      exact ⟨⟨h.revision, h.author, h.passed, h.waiting⟩, fun _ => hend, h.large, h.observed⟩
    · exact h.passed key hkey (Table.passed_of_nextAfter_none hend hkey)
    · exact h.noneDue hi hready hend
  · next key id hrow =>
    obtain ⟨hnext, hrow⟩ := nextTx_some hrow
    rw [h.author] at hnext hrow
    refine (selectRow_spec (a := { a with scan := some s }) hi hready h (by simpa using hfresh) hnext hrow).mono ?_
      fun _ h => h
    rintro ⟨a', selection⟩ ⟨hk, hs⟩
    exact ⟨⟨hk.epoch, hk.active, hk.scan, hk.rests⟩, hs⟩

/-! ## 3. Intents come first

An intent is a payload that somebody waits for. If it would fit now, or if the room that was freed belongs to it,
then pressure stands back. -/

/-- An intent that fits, or owns what was freed. It is an intent of this generation and of these budgets, and it
has not expired. -/
structure Claims (env : Env) (db : Database) (l : AdmissionLedger) (demands : DemandState)
    (request : PressureRequest) (now : Timestamp) (event : EventId) : Prop where
  generation : demands.generation = some request.generation
  config : demands.config = request.config
  unreserved : l.state.events.get event = none
  claims : ∃ entry v key, demands.entries.get event = some entry ∧
    demandEventTx env db event request.generation now = some (v, key) ∧
    (demands.active = some (event, entry.id) ∨ payloadCapacityPauseTx db v l.state = .ok none)

/-- **A visit takes place only when no intent claims the room.** The loop is over all intents; if the clock stops
it half-way, there is no visit. -/
theorem demandsBlock_spec {demands : DemandState} : ∀ (looks : ℕ) (ids : List EventId) (looks' : ℕ),
    demandsBlock env db l demands request now looks ids = .ok (some looks') →
      ∀ event ∈ ids, ¬Claims env db l demands request now event
  | looks, [], looks', _, event, hmem => by cases hmem
  | 0, _ :: _, looks', h, _, _ => by
    unfold demandsBlock at h
    cases h
  | looks + 1, id :: ids, looks', h, event, hmem => by
    unfold demandsBlock at h
    have hrest : demandsBlock env db l demands request now looks ids = .ok (some looks') →
        ¬Claims env db l demands request now id → ¬Claims env db l demands request now event := by
      intro hok hhead
      rcases List.mem_cons.mp hmem with rfl | hmem
      · exact hhead
      · exact demandsBlock_spec looks ids looks' hok event hmem
    split at h
    · next hnone =>
      refine hrest h fun hc => ?_
      obtain ⟨entry, v, key, hget, -⟩ := hc.claims
      rw [hnone] at hget
      cases hget
    next entry hentry =>
    split at h
    · next hgate =>
      refine hrest h fun hc => ?_
      rcases hgate with hg | hg | hg
      · exact hg hc.generation
      · exact hg hc.config
      · rw [hc.unreserved] at hg
        cases hg
    split at h
    · next hnone =>
      refine hrest h fun hc => ?_
      obtain ⟨entry', v, key, -, hevent, -⟩ := hc.claims
      rw [hnone] at hevent
      cases hevent
    next v key hevent =>
    split at h
    · cases h
    next hactive =>
    split at h
    · cases h
    · cases h
    · next pause hpause =>
      refine hrest h fun hc => ?_
      obtain ⟨entry', v', key', hget, hevent', hclaim⟩ := hc.claims
      cases hentry.symm.trans hget
      cases hevent.symm.trans hevent'
      rcases hclaim with hown | hfits
      · exact hactive hown
      · rw [hfits] at hpause
        cases hpause

/-! ## 4. The flag of a scope

Pressure on a scope begins above its budget and ends below a lower mark; between the two the flag decides. -/

/-- Is the scope triggered, as far as this incarnation knows? -/
def armed (t : PressureTables) (epoch : ℕ) : Option RostraId → Bool
  | some author => ((t.authors.get author).filter (·.epoch = epoch)).any (·.active)
  | none => (t.state.filter (·.epoch = epoch)).any (·.global)

/-- The bytes that are reserved in a scope. -/
def reservedBytes (s : AdmissionState) (scope : Option RostraId) : ℕ :=
  ((s.leases.filter fun lease => scope.all (· = lease.author)).map (·.bytes)).sum

omit [Primitives] in
theorem reservedIn_spec (scope : Option RostraId) : ∀ (looks reserved : ℕ) (leases : List ReservedEvent),
    Ensures (reservedIn scope looks reserved leases) (fun out => ∀ looks' total, out = some (looks', total) →
      total = reserved + ((leases.filter fun lease => scope.all (· = lease.author)).map (·.bytes)).sum)
      (fun _ => True)
  | looks, reserved, [] => by
    unfold reservedIn
    intro looks' total h
    cases h
    simp
  | 0, reserved, _ :: _ => by
    unfold reservedIn
    intro looks' total h
    cases h
  | looks + 1, reserved, lease :: leases => by
    unfold reservedIn
    split
    · next hin =>
      unfold checkedAdd
      split
      · refine (reservedIn_spec scope looks (reserved + lease.bytes) leases).mono ?_ fun _ h => h
        intro out hout looks' total h
        rw [hout looks' total h]
        simp [hin, Nat.add_assoc]
      · trivial
    · next hout =>
      refine (reservedIn_spec scope looks reserved leases).mono (fun out h looks' total heq => ?_) fun _ h => h
      rw [h looks' total heq]
      simp [hout]

/-- **What a visit measures**: the bytes of the scope, its budget, and whether it is triggered, which depends on
the flag it has had before. -/
structure Measures (db : Database) (t : PressureTables) (l : AdmissionLedger) (epoch : ℕ)
    (scope : Option RostraId) (active : Bool) (total high : ℕ) : Prop where
  sum : ∃ retained, retainedIn db scope = .ok retained ∧ total = retained + reservedBytes l.state scope
  budget : ∃ config, l.state.config = some config ∧ high = highWater config scope
  flag : active = (decide (high < total) || (armed t epoch scope && decide (experimentalLowWater high < total)))

omit [Primitives] in
theorem storedScope_active {t : PressureTables} {record : PressureRecord} (hrecord : t.state = some record)
    (cursor : PressureCursor) (scope : Option RostraId) :
    (storedScope t record cursor scope).active = armed t record.epoch scope := by
  cases scope with
  | none => simp [storedScope, armed, hrecord]
  | some author =>
    unfold storedScope armed
    dsimp only
    cases (t.authors.get author).filter (·.epoch = record.epoch) with
    | none => rfl
    | some row => rfl

variable (db l scope) in
omit [Primitives] in
theorem scopeActive_spec {t : PressureTables} {record : PressureRecord} (hrecord : t.state = some record)
    (cursor : PressureCursor) (looks : ℕ) :
    Ensures (scopeActive db t l record cursor scope looks) (fun out => ∀ a looks' total high,
      out = some (a, looks', total, high) →
        Measures db t l record.epoch scope a.active total high ∧
        ∃ active, a = { storedScope t record cursor scope with active := active }) (fun _ => True) := by
  unfold scopeActive
  refine (reservedIn_spec scope looks 0 l.state.leases).bind fun out hout => ?_
  split
  · intro a looks' total high h
    cases h
  next looks'' reserved =>
  have hreserved : reserved = reservedBytes l.state scope := by
    rw [hout _ _ rfl, Nat.zero_add]
    rfl
  refine ((ensures_self _).mono (fun _ h => h) fun _ _ => trivial).bind fun retained hretained => ?_
  unfold checkedAdd
  split
  swap
  · trivial
  dsimp only [bind, Except.bind]
  split
  · trivial
  next config hconfig =>
  intro a looks' total high h
  cases h
  refine ⟨⟨⟨retained, hretained, by rw [hreserved]⟩, ⟨config, hconfig, rfl⟩, ?_⟩, _, rfl⟩
  rw [storedScope_active hrecord]

/-! ## 5. What is saved

Saving is where the three memories are written. The pass remembers of an author that it was left, and when at the
latest it has to come back. -/

/-- **The frontiers that this incarnation has stored are good.** Rows of another incarnation may say anything,
since nobody reads them. -/
structure PressureSound (D : Set VerifiedEvent) (r : RetentionIndex) (revision epoch : ℕ) (t : PressureTables)
    (c : PressureCursor) : Prop where
  authors : ∀ author row, t.authors.get author = some row → row.epoch = epoch →
    ∀ s, row.scan = some s → WalkSound D r revision s
  global : ∀ s, c.globalScan = some s → WalkSound D r revision s

/-- A retry time that does not lie after another one. -/
def Sooner (t t' : Option Timestamp) : Prop := ∀ x, t = some x → ∃ y, t' = some y ∧ y ≤ x

/-- **The authors that a pass is done with are settled**, whatever that means, up to the retry time. -/
structure PassSound (authors : Finset RostraId) (settled : Option Timestamp → RostraId → Prop)
    (c : PressureCursor) : Prop where
  behind : ∀ a ∈ authors, c.authorsDone = true ∨ Table.passed c.after a = true → settled c.retryAt a
  selected : c.authorsDone = false → ∀ a, c.selected = some a → Table.nextAfter authors c.after = some a

/-- The pass has not begun. -/
structure Fresh (c : PressureCursor) : Prop where
  after : c.after = none
  selected : c.selected = none
  authorsDone : c.authorsDone = false

section Saving

omit [Primitives]

variable {authors : Finset RostraId} {settled : Option Timestamp → RostraId → Prop} {c : PressureCursor}
  {t : PressureTables} {record : PressureRecord} {a : AuthorPressure} {author : RostraId}
  {selection : PressureSelection} {epoch : ℕ}

theorem Fresh.passSound (h : Fresh c) : PassSound authors settled c := by
  refine ⟨fun x _ hx => ?_, fun _ x hx => ?_⟩
  · rcases hx with hx | hx
    · exact absurd (h.authorsDone.symm.trans hx) (by simp)
    · rw [h.after] at hx
      cases hx
  · exact absurd (h.selected.symm.trans hx) (by simp)

theorem fresh_empty : Fresh {} := ⟨rfl, rfl, rfl⟩

/-- **The next scope of a pass** is the next author behind the cursor. It is the database only when every author
was left for a reason. -/
theorem PassSound.nextScope (h : PassSound authors settled c) :
    PassSound authors settled (c.nextScope authors).2 ∧
      ((c.nextScope authors).1 = .global → ∀ a ∈ authors, settled c.retryAt a) ∧
      ∀ a, (c.nextScope authors).1 = .author a → (c.nextScope authors).2.authorsDone = false ∧
        (c.nextScope authors).2.selected = some a := by
  unfold PressureCursor.nextScope
  split
  · next hdone => exact ⟨h, fun _ a ha => h.behind a ha (.inl hdone), fun a hno => (by cases hno)⟩
  next hdone =>
  have hopen : c.authorsDone = false := by simpa using hdone
  split
  · next author hselected =>
    refine ⟨h, fun hno => (by cases hno), fun a ha => ?_⟩
    cases ha
    exact ⟨hopen, hselected⟩
  split
  · next author hnext =>
    refine ⟨⟨fun x hx hbehind => h.behind x hx hbehind, fun _ x hx => ?_⟩, fun hno => (by cases hno),
      fun a ha => ?_⟩
    · cases hx
      exact hnext
    · cases ha
      exact ⟨hopen, rfl⟩
  · next hnext =>
    refine ⟨⟨fun x hx _ => ?_, fun hno => (by cases hno)⟩, fun hno => (by cases hno), fun a hno => (by cases hno)⟩
    exact h.behind x hx (.inr (Table.passed_of_nextAfter_none hnext hx))

variable (t record a author selection) in
/-- What the pass remembers of an author. -/
theorem saveScope_author_retry (c : PressureCursor) :
    Sooner c.retryAt (saveScope t (some author) a record c selection).2.1.retryAt ∧
      (a.active = true → Sooner (a.scan.bind (·.retryAt))
        (saveScope t (some author) a record c selection).2.1.retryAt) := by
  have hretry : (saveScope t (some author) a record c selection).2.1.retryAt =
      (if a.active then a.scan.bind (·.retryAt) else none).elim c.retryAt fun t =>
        some (c.retryAt.elim t (min · t)) := by
    unfold saveScope
    cases selection <;> rfl
  rw [hretry]
  generalize a.scan.bind (·.retryAt) = retry
  constructor
  · intro x hx
    cases (if a.active then retry else none) with
    | none => exact ⟨x, hx, le_rfl⟩
    | some y =>
      rw [hx]
      exact ⟨min x y, rfl, min_le_left x y⟩
  · intro hactive x hx
    rw [if_pos hactive, hx]
    cases c.retryAt with
    | none => exact ⟨x, rfl, le_rfl⟩
    | some y => exact ⟨min y x, rfl, min_le_right y x⟩

variable (t record a) in
/-- **The pass goes on** behind an author that is blocked, and the reason for it is added to those of the authors
before. -/
theorem PassSound.saveScope_author (h : PassSound authors settled c)
    (hmono : ∀ t t' a, Sooner t t' → settled t a → settled t' a) (hdone : c.authorsDone = false)
    (hselected : c.selected = some author)
    (hblocked : ∀ reason, selection = .blocked reason →
      settled (saveScope t (some author) a record c selection).2.1.retryAt author) :
    PassSound authors settled (saveScope t (some author) a record c selection).2.1 := by
  have hsooner := (saveScope_author_retry t record a author selection c).1
  have hnext := h.selected hdone author hselected
  cases selection with
  | blocked reason =>
    refine ⟨fun x hx hbehind => ?_, fun _ x hno => (by cases hno)⟩
    have hpassed : Table.passed (some author) x = true := by
      rcases hbehind with hbehind | hbehind
      · exact absurd (hdone.symm.trans hbehind) (by simp)
      · exact hbehind
    rcases (Table.passed_nextAfter hnext hx).mp hpassed with hold | rfl
    · exact hmono _ _ _ hsooner (h.behind x hx (.inr hold))
    · exact hblocked reason rfl
  | advanced => exact ⟨fun x hx hbehind => hmono _ _ _ hsooner (h.behind x hx hbehind), h.selected⟩
  | prune prune => exact ⟨fun x hx hbehind => hmono _ _ _ hsooner (h.behind x hx hbehind), h.selected⟩

variable (t record a selection) in
theorem PassSound.saveScope_global (h : PassSound authors settled c) :
    PassSound authors settled (saveScope t none a record c selection).2.1 := by
  unfold saveScope
  dsimp only
  split
  · exact fresh_empty.passSound
  cases selection with
  | blocked reason => exact Fresh.passSound ⟨rfl, rfl, rfl⟩
  | advanced => exact ⟨h.behind, h.selected⟩
  | prune prune => exact ⟨h.behind, h.selected⟩

end Saving

/-! ## 6. The visit

A visit writes the row of its own scope and no other one. -/

section Flags

variable {t : PressureTables} {record : PressureRecord} {a : AuthorPressure} {c : PressureCursor}
  {selection : PressureSelection} {scope' : Option RostraId}

omit [Primitives] in
/-- **A visit sets the flag of its own scope**, and no other. The two kinds of scopes keep it at different places.
-/
theorem saveScope_armed (hrecord : t.state = some record) (hepoch : a.epoch = record.epoch) :
    armed (saveScope t scope a record c selection).1 record.epoch scope' =
      if scope' = scope then a.active else armed t record.epoch scope' := by
  cases scope with
  | none =>
    have htables : (saveScope t none a record c selection).1 = { t with state := some { record with
        global := a.active } } := by
      unfold saveScope
      cases a.active <;> cases selection <;> rfl
    rw [htables]
    cases scope' with
    | none => simp [armed]
    | some author => simp [armed]
  | some author =>
    have htables : (saveScope t (some author) a record c selection).1 = { t with
        authors := (if a.active then t.authors.insert author a else t.authors.remove author) } := by
      unfold saveScope
      cases selection <;> rfl
    rw [htables]
    cases scope' with
    | none => simp [armed, hrecord]
    | some author' =>
      by_cases hsame : author' = author
      · subst hsame
        cases hactive : a.active <;> simp [armed, hactive, hepoch]
      · have hne : (some author' : Option RostraId) ≠ some author := by simpa using hsame
        cases hactive : a.active <;>
          simp [armed, hne, Table.get_insert_of_ne _ _ hsame, Table.get_remove_of_ne _ hsame]

omit [Primitives] in
theorem saveScope_record (hrecord : t.state = some record) :
    (saveScope t scope a record c selection).1.state.map (·.epoch) = some record.epoch := by
  unfold saveScope
  cases scope with
  | none => cases a.active <;> cases selection <;> rfl
  | some author => cases selection <;> simp [hrecord]

omit [Primitives] in
/-- The rows of another incarnation are not written. -/
theorem saveScope_rows (hepoch : a.epoch = record.epoch) {author : RostraId} {row : AuthorPressure}
    (h : (saveScope t scope a record c selection).1.authors.get author = some row) :
    (row = a ∧ scope = some author ∧ row.epoch = record.epoch) ∨ t.authors.get author = some row := by
  cases scope with
  | none =>
    refine .inr ?_
    unfold saveScope at h
    revert h
    cases a.active <;> cases selection <;> exact id
  | some visited =>
    have htables : (saveScope t (some visited) a record c selection).1.authors =
        if a.active then t.authors.insert visited a else t.authors.remove visited := by
      unfold saveScope
      cases selection <;> rfl
    rw [htables] at h
    by_cases hsame : author = visited
    · subst hsame
      cases hactive : a.active with
      | false => simp [hactive] at h
      | true =>
        simp only [hactive, if_true, Table.get_insert_self, Option.some.injEq] at h
        exact .inl ⟨h.symm, rfl, h ▸ hepoch⟩
    · refine .inr ?_
      cases hactive : a.active <;>
        simpa [hactive, Table.get_insert_of_ne _ _ hsame, Table.get_remove_of_ne _ hsame] using h

omit [Primitives] in
theorem saveScope_globalScan :
    ∀ s, (saveScope t scope a record c selection).2.1.globalScan = some s →
      c.globalScan = some s ∨ scope = none ∧ a.scan = some s := by
  intro s h
  unfold saveScope at h
  cases scope with
  | none =>
    dsimp only at h
    split at h
    · cases h
    cases selection <;> exact .inr ⟨rfl, h⟩
  | some author => cases selection <;> exact .inl h

variable (scope selection) in
/-- **The frontiers that are saved are good.** -/
theorem PressureSound.saveScope {r : RetentionIndex} (h : PressureSound D r revision record.epoch t c)
    (hepoch : a.epoch = record.epoch) (hscan : ∀ s, a.scan = some s → WalkSound D r revision s) :
    PressureSound D r revision record.epoch (saveScope t scope a record c selection).1
      (saveScope t scope a record c selection).2.1 := by
  refine ⟨fun author row hrow hcurrent s hs => ?_, fun s hs => ?_⟩
  · rcases saveScope_rows hepoch hrow with ⟨rfl, -⟩ | hold
    · exact hscan s hs
    · exact h.authors author row hold hcurrent s hs
  · rcases saveScope_globalScan s hs with hold | ⟨-, hnew⟩
    · exact h.global s hold
    · exact hscan s hnew

omit [Primitives] in
theorem storedScope_epoch (t : PressureTables) (record : PressureRecord) (c : PressureCursor)
    (scope : Option RostraId) : (storedScope t record c scope).epoch = record.epoch := by
  cases scope with
  | none => rfl
  | some author =>
    unfold storedScope
    dsimp only
    cases hrow : (t.authors.get author).filter (·.epoch = record.epoch) with
    | none => rfl
    | some row => simpa using (Option.filter_eq_some_iff.mp hrow).2

theorem PressureSound.storedScope {r : RetentionIndex} (h : PressureSound D r revision record.epoch t c)
    (scope : Option RostraId) :
    ∀ s, (storedScope t record c scope).scan = some s → WalkSound D r revision s := by
  intro s hs
  cases scope with
  | none => exact h.global s hs
  | some author =>
    unfold Db.storedScope at hs
    dsimp only at hs
    cases hrow : (t.authors.get author).filter (·.epoch = record.epoch) with
    | none =>
      rw [hrow] at hs
      cases hs
    | some row =>
      rw [hrow] at hs
      obtain ⟨hget, hcurrent⟩ := Option.filter_eq_some_iff.mp hrow
      exact h.authors author row hget (by simpa using hcurrent) s hs

end Flags

/-! ## 7. The step

A step does nothing or makes one visit, and a visit releases one payload at most. -/

/-- **A visit that was made**: what it measured, what it chose, and what was done about it. A turn whose release
fails has made no visit. -/
structure VisitMade (env : Env) (db : Database) (t : PressureTables) (l : AdmissionLedger)
    (request : PressureRequest) (now : Timestamp) (epoch : ℕ) (visit : PressureVisit) (turn : PressureTurn) :
    Prop where
  measures : Measures db t l epoch visit.scope (armed turn.tables epoch visit.scope) visit.total visit.high
  others : ∀ scope, scope ≠ visit.scope → armed turn.tables epoch scope = armed t epoch scope
  inactive : armed turn.tables epoch visit.scope = false → visit.selection = .blocked .inactive
  selected : armed turn.tables epoch visit.scope = true →
    SelectionSpec env db request now visit.scope visit.selection
  effect : (turn.db = db ∧ ∀ prune, visit.selection ≠ .prune prune) ∨
    ∃ prune bytes, visit.selection = .prune prune ∧
      pruneQuotaPayloadTx env db prune = .ok (turn.db, .pruned bytes)

/-- **One step of the worker**, in whatever state the frontiers were left. It is used for one turn in isolation;
the run adds where the frontiers come from. -/
structure PressureSpec (D : Set VerifiedEvent) (env : Env) (db : Database) (t : PressureTables)
    (l : AdmissionLedger) (epoch : ℕ) (request : PressureRequest) (now : Timestamp) (turn : PressureTurn) :
    Prop where
  sound : PressureSound D db.retention l.retentionRevision epoch turn.tables turn.cursor
  record : turn.tables.state.map (·.epoch) = t.state.map (·.epoch)
  rows : ∀ author row, turn.tables.authors.get author = some row →
    t.authors.get author = some row ∨ t.state.map (·.epoch) = some row.epoch
  idle : turn.visit = none → turn.db = db ∧ turn.tables = t
  visited : ∀ visit, turn.visit = some visit → VisitMade env db t l request now epoch visit turn

section Step

variable {t : PressureTables} {c c' : PressureCursor} {record : PressureRecord} {epoch looks : ℕ}
  {reply : DbResult PressureStep}

/-- Nothing was visited. -/
theorem PressureSpec.still (h : PressureSound D db.retention l.retentionRevision epoch t c)
    (hscan : ∀ s, c'.globalScan = some s → c.globalScan = some s) :
    PressureSpec D env db t l epoch request now ⟨db, t, c', reply, none⟩ :=
  ⟨⟨h.authors, fun s hs => h.global s (hscan s hs)⟩, rfl, fun _ _ h => .inl h, fun _ => ⟨rfl, rfl⟩,
    fun _ h => (by cases h)⟩

variable (scope looks) in
/-- What the selection of an active scope and the verdict on an inactive one have in common. -/
theorem selectActive_spec (hi : IndexReady D env db request.generation)
    (hready : retentionSelectionReadyTx db.retention request.generation now = true) (hcf : CollisionFree D)
    {a : AuthorPressure} (hsound : ∀ s, a.scan = some s → WalkSound D db.retention l.retentionRevision s) :
    Ensures (if a.active then select env db request now l.retentionRevision scope looks a
        else .ok (a, .blocked .inactive)) (fun out =>
      (out.1.active = a.active ∧ out.1.epoch = a.epoch) ∧
      (∀ s, out.1.scan = some s → WalkSound D db.retention l.retentionRevision s) ∧
      (a.active = true → ScopeKept D db.retention l.retentionRevision scope now a out.1 out.2 ∧
        SelectionSpec env db request now scope out.2) ∧
      (a.active = false → out.2 = .blocked .inactive)) (fun _ => True) := by
  split
  · next hactive =>
    refine (select_spec hi hready hcf hsound looks).mono ?_ fun _ h => h
    rintro ⟨a', selection⟩ ⟨hk, hs⟩
    exact ⟨⟨hk.active, hk.epoch⟩, fun s hs' => (hk.scan s hs').sound, fun _ => ⟨hk, hs⟩,
      fun hno => absurd (hactive.symm.trans hno) (by simp)⟩
  · next hinactive => exact ⟨⟨rfl, rfl⟩, hsound, fun hno => absurd hno hinactive, fun _ => rfl⟩

/-- What is known of a scope when its visit is saved. -/
structure Visiting (D : Set VerifiedEvent) (env : Env) (db : Database) (t : PressureTables) (l : AdmissionLedger)
    (request : PressureRequest) (now : Timestamp) (epoch : ℕ) (scope : Option RostraId) (a : AuthorPressure)
    (total high : ℕ) (selection : PressureSelection) : Prop where
  measures : Measures db t l epoch scope a.active total high
  epoch : a.epoch = epoch
  scan : ∀ s, a.scan = some s → WalkSound D db.retention l.retentionRevision s
  active : a.active = true → SelectionSpec env db request now scope selection
  inactive : a.active = false → selection = .blocked .inactive
  rests : selection = .blocked .exhausted → a.active = true ∧ ∀ key ∈ scopeKeys db.retention scope,
    ∃ t, a.scan.bind (·.retryAt) = some t ∧ t ≤ dueAt db.retention scope key

variable (scope looks) in
/-- **Everything a visit can do.**  It leaves all alone, or it saves the scope and does what was selected, or it
saves the cursor only because the release was refused. -/
theorem visitScope_cases (hi : IndexReady D env db request.generation)
    (hready : retentionSelectionReadyTx db.retention request.generation now = true) (hcf : CollisionFree D)
    (hrecord : t.state = some record) (h : PressureSound D db.retention l.retentionRevision record.epoch t c) :
    (∃ reply, visitScope env db t l request now record c scope looks = ⟨db, t, c, reply, none⟩) ∨
    ∃ a total high selection,
      Visiting D env db t l request now record.epoch scope a total high selection ∧
      ((∃ reply prune, selection = .prune prune ∧ visitScope env db t l request now record c scope looks =
          ⟨db, t, (saveScope t scope a record c selection).2.1, reply, none⟩) ∨
        ∃ db' reply, visitScope env db t l request now record c scope looks =
            ⟨db', (saveScope t scope a record c selection).1, (saveScope t scope a record c selection).2.1, reply,
              some ⟨scope, total, high, selection⟩⟩ ∧
          ((db' = db ∧ ∀ prune, selection ≠ .prune prune) ∨ ∃ prune bytes, selection = .prune prune ∧
            pruneQuotaPayloadTx env db prune = .ok (db', .pruned bytes))) := by
  unfold visitScope
  have hactive := scopeActive_spec db l scope hrecord c looks
  generalize scopeActive db t l record c scope looks = measured at hactive
  cases measured with
  | error e => exact .inl ⟨_, rfl⟩
  | ok measured =>
    cases measured with
    | none => exact .inl ⟨_, rfl⟩
    | some measured =>
      obtain ⟨a, looks, total, high⟩ := measured
      obtain ⟨hmeasures, active, hstored⟩ := hactive a looks total high rfl
      have hstoredSound : ∀ s, a.scan = some s → WalkSound D db.retention l.retentionRevision s := by
        intro s hs
        rw [hstored] at hs
        exact h.storedScope scope s hs
      have hepoch : a.epoch = record.epoch := by
        rw [hstored]
        exact storedScope_epoch t record c scope
      have hselect := selectActive_spec scope looks hi hready hcf hstoredSound
      dsimp only
      generalize (if a.active then select env db request now l.retentionRevision scope looks a
        else .ok (a, .blocked .inactive)) = selecting at hselect
      cases selecting with
      | error e => exact .inl ⟨_, rfl⟩
      | ok selecting =>
        obtain ⟨a', selection⟩ := selecting
        obtain ⟨⟨hflag, hepoch'⟩, hscan, hspec, hinactive⟩ := hselect
        refine .inr ⟨a', total, high, selection, ⟨hflag ▸ hmeasures, hepoch'.trans hepoch, hscan,
          fun hyes => (hspec (hflag.symm.trans hyes)).2, fun hno => hinactive (hflag.symm.trans hno),
          fun hselection => ?_⟩, ?_⟩
        · cases hcase : a.active with
          | false =>
            have hno := hselection.symm.trans (hinactive hcase)
            cases hno
          | true => exact ⟨hflag.trans hcase, (hspec hcase).1.rests hselection⟩
        cases selection with
        | advanced => exact .inr ⟨_, _, rfl, .inl ⟨rfl, by simp⟩⟩
        | blocked reason => exact .inr ⟨_, _, rfl, .inl ⟨rfl, by simp⟩⟩
        | prune prune =>
          dsimp only
          split
          · next db' bytes hpruned => exact .inr ⟨_, _, rfl, .inr ⟨prune, bytes, rfl, hpruned⟩⟩
          · exact .inl ⟨_, prune, rfl, rfl⟩
          · exact .inl ⟨_, prune, rfl, rfl⟩

/-- **The visit of a scope**: measure, select, release, save. -/
theorem visitScope_spec (hi : IndexReady D env db request.generation)
    (hready : retentionSelectionReadyTx db.retention request.generation now = true) (hcf : CollisionFree D)
    (hrecord : t.state = some record) (h : PressureSound D db.retention l.retentionRevision record.epoch t c) :
    PressureSpec D env db t l record.epoch request now
      (visitScope env db t l request now record c scope looks) := by
  rcases visitScope_cases scope looks hi hready hcf hrecord h with
    ⟨reply, heq⟩ | ⟨a, total, high, selection, hv, hcase⟩
  · rw [heq]
    exact .still h fun _ hs => hs
  have hsaved := h.saveScope scope selection hv.epoch hv.scan
  rcases hcase with ⟨reply, prune, rfl, heq⟩ | ⟨db', reply, heq, heffect⟩
  · rw [heq]
    exact ⟨⟨h.authors, hsaved.global⟩, rfl, fun _ _ hrow => .inl hrow, fun _ => ⟨rfl, rfl⟩,
      fun _ hno => (by cases hno)⟩
  · rw [heq]
    have hflags : ∀ scope', armed (saveScope t scope a record c selection).1 record.epoch scope' =
        if scope' = scope then a.active else armed t record.epoch scope' := fun scope' =>
      saveScope_armed hrecord hv.epoch
    have hown := (hflags scope).trans (if_pos rfl)
    refine ⟨hsaved, ?_, fun author row hrow => ?_, fun hno => (by cases hno), fun visit hvisit => ?_⟩
    · rw [saveScope_record hrecord, hrecord]
      rfl
    · rcases saveScope_rows hv.epoch hrow with ⟨-, -, hcurrent⟩ | hold
      · refine .inr ?_
        rw [hrecord, hcurrent]
        rfl
      · exact .inl hold
    · cases hvisit
      refine ⟨?_, fun scope' hne => (hflags scope').trans (if_neg hne), fun hno => ?_, fun hyes => ?_, heffect⟩
      · dsimp only
        rw [hown]
        exact hv.measures
      · exact hv.inactive (hown.symm.trans hno)
      · exact hv.active (hown.symm.trans hyes)

omit [Primitives] in
theorem loadRecord_ok (h : loadRecord t epoch = .ok record) : t.state = some record ∧ record.epoch = epoch := by
  unfold loadRecord at h
  split at h
  · cases h
  · next record' hstate =>
    split at h
    · cases h
    · next hepoch =>
      cases h
      exact ⟨hstate, not_not.mp hepoch⟩

omit [Primitives] in
theorem reconcile_globalScan {go : Bool} (h : c.reconcile l now = .ok (go, c')) :
    c'.globalScan = none ∨ c'.globalScan = c.globalScan := by
  unfold PressureCursor.reconcile at h
  split at h
  · cases h
  split at h
  · cases h
    exact .inl rfl
  · cases h
    exact .inr rfl

omit [Primitives] in
theorem nextScope_globalScan (c : PressureCursor) (authors : Finset RostraId) :
    (c.nextScope authors).2.globalScan = c.globalScan := by
  unfold PressureCursor.nextScope
  split
  · rfl
  split
  · rfl
  split <;> rfl

variable (request now) in
/-- **One step**: it may stop before it gets to a visit, and then the tables are as they were. -/
theorem pressureStep_spec (hk : KeyedBy D db.ev) (hx : Indexed env db db.retention) (hcf : CollisionFree D)
    (demands : DemandState) (h : PressureSound D db.retention l.retentionRevision epoch t c) :
    PressureSpec D env db t l epoch request now (pressureStepWith env db t l demands epoch request c now) := by
  unfold pressureStepWith
  split
  · exact .still h fun _ hs => hs
  next hselect =>
  have hready : retentionSelectionReadyTx db.retention request.generation now = true := by simpa using hselect
  have hi : IndexReady D env db request.generation := ⟨hk, hx, selectionReady_state hready⟩
  split
  · exact .still h fun _ hs => hs
  · exact .still h fun _ hs => hs
  next record hrecord =>
  obtain ⟨hstate, rfl⟩ := loadRecord_ok hrecord
  split
  · exact .still h fun _ hs => hs
  · exact .still h fun _ hs => hs
  split
  · exact .still h fun _ hs => hs
  · next c' hreconcile =>
    refine .still h fun s hs => ?_
    rcases reconcile_globalScan hreconcile with hc | hc
    · rw [hc] at hs
      cases hs
    · rw [← hc]
      exact hs
  next c' hreconcile =>
  have hscan : ∀ s, c'.globalScan = some s → c.globalScan = some s := by
    intro s hs
    rcases reconcile_globalScan hreconcile with hc | hc
    · rw [hc] at hs
      cases hs
    · rw [← hc]
      exact hs
  have hnext := nextScope_globalScan c' db.accounting.authors.keys
  split
  · next c'' hc'' =>
    rw [hc''] at hnext
    exact .still h fun s hs => hscan s (hnext ▸ hs)
  · next author c'' hc'' =>
    rw [hc''] at hnext
    exact visitScope_spec hi hready hcf hstate ⟨h.authors, fun s hs => h.global s (hscan s (hnext ▸ hs))⟩
  · next c'' hc'' =>
    rw [hc''] at hnext
    exact visitScope_spec hi hready hcf hstate ⟨h.authors, fun s hs => h.global s (hscan s (hnext ▸ hs))⟩

/-- **A visit is made only when no live intent claims the room.** -/
theorem pressureStep_unclaimed {demands : DemandState} {visit : PressureVisit}
    (h : (pressureStepWith env db t l demands epoch request c now).visit = some visit) (event : EventId) :
    ¬Claims env db l demands request now event := by
  intro hclaims
  obtain ⟨entry, v, key, hget, -⟩ := hclaims.claims
  have hmem : event ∈ Table.firstKeys demands.entries.keys demands.entries.keys.card :=
    Table.mem_firstKeys _ _ le_rfl _ (Table.mem_keys.mpr ⟨entry, hget⟩)
  unfold pressureStepWith at h
  split at h
  · cases h
  split at h
  · cases h
  · cases h
  split at h
  · cases h
  · cases h
  next looks' hblock => exact demandsBlock_spec _ _ _ hblock event hmem hclaims

end Step

/-! ## 8. The pass over the authors

The database itself is visited after all its authors. That each of them was settled before is what the cursor has
to carry from step to step, through every change of the index, the ledger or the accounting in between. -/

/-- **The cursor of a runner.**  A pass whose revisions are the current ones has settled what it passed; any other
one is dropped before it is used. -/
structure CursorSound (l : AdmissionLedger) (authors : Finset RostraId) (ready : Prop)
    (settled : Option Timestamp → RostraId → Prop) (c : PressureCursor) : Prop where
  known : ∀ n, c.revision = some n → n ≤ l.pressureRevision
  indexKnown : ∀ n, c.indexRevision = some n → n ≤ l.retentionRevision
  indexed : c.indexRevision = none → c.revision = none
  fresh : c.revision = none → Fresh c
  ready : c.revision.isSome = true → ready
  pass : c.revision = some l.pressureRevision → c.indexRevision = some l.retentionRevision →
    l.pressureRevision ≠ u64Max → PassSound authors settled c

/-- A pass that goes on. -/
structure Passing (l : AdmissionLedger) (authors : Finset RostraId)
    (settled : Option Timestamp → RostraId → Prop) (now : Timestamp) (c : PressureCursor) : Prop where
  revision : c.revision = some l.pressureRevision
  indexRevision : c.indexRevision = some l.retentionRevision
  pass : PassSound authors settled c
  waiting : ∀ t, c.retryAt = some t → now < t

section Pass

variable {t : PressureTables} {c c' : PressureCursor} {record : PressureRecord} {epoch looks : ℕ}
  {authors : Finset RostraId} {ready : Prop} {settled : Option Timestamp → RostraId → Prop}

omit [Primitives] in
theorem cursorSound_empty : CursorSound l authors ready settled {} :=
  ⟨fun _ h => (by cases h), fun _ h => (by cases h), fun _ => rfl, fun _ => fresh_empty, fun h => (by cases h),
    fun h => (by cases h)⟩

omit [Primitives] in
theorem Passing.sound (h : Passing l authors settled now c) (hready : ready) :
    CursorSound l authors ready settled c := by
  refine ⟨fun n hn => ?_, fun n hn => ?_, fun hno => ?_, fun hno => ?_, fun _ => hready, fun _ _ _ => h.pass⟩
  · exact (Option.some.inj (hn.symm.trans h.revision)).le
  · exact (Option.some.inj (hn.symm.trans h.indexRevision)).le
  · exact absurd (hno.symm.trans h.indexRevision) (by simp)
  · exact absurd (hno.symm.trans h.revision) (by simp)

omit [Primitives] in
/-- **A cursor that is accepted** belongs to the current revisions, and nothing it skipped is due. One that is not
accepted is replaced by a new one, and the pass begins again. -/
theorem CursorSound.reconcile (h : CursorSound l authors ready settled c)
    (hok : c.reconcile l now = .ok (true, c')) : Passing l authors settled now c' ∧ c'.retryAt = c.retryAt := by
  unfold PressureCursor.reconcile at hok
  split at hok
  · cases hok
  next hbound =>
  split at hok
  · cases hok
  next hstale =>
  cases hok
  simp only [Bool.or_eq_true, not_or, Option.any_eq_true, not_exists, not_and, decide_eq_true_eq,
    not_not, not_le, not_lt] at hstale
  obtain ⟨⟨⟨hrevision, hindex⟩, hretry⟩, -⟩ := hstale
  refine ⟨⟨rfl, rfl, ?_, hretry⟩, rfl⟩
  have hpass : PassSound authors settled c := by
    cases hcase : c.revision with
    | none => exact (h.fresh hcase).passSound
    | some n =>
      obtain rfl := hrevision n hcase
      cases hcase' : c.indexRevision with
      | none => exact absurd (hcase.symm.trans (h.indexed hcase')) (by simp)
      | some n' =>
        obtain rfl := hindex n' hcase'
        exact h.pass hcase hcase' hbound
  exact ⟨hpass.behind, hpass.selected⟩

omit [Primitives] in
theorem nextScope_frame (c : PressureCursor) (authors : Finset RostraId) :
    (c.nextScope authors).2.revision = c.revision ∧ (c.nextScope authors).2.indexRevision = c.indexRevision ∧
      (c.nextScope authors).2.retryAt = c.retryAt := by
  unfold PressureCursor.nextScope
  split
  · exact ⟨rfl, rfl, rfl⟩
  split
  · exact ⟨rfl, rfl, rfl⟩
  split <;> exact ⟨rfl, rfl, rfl⟩

omit [Primitives] in
theorem Passing.nextScope (h : Passing l authors settled now c) :
    Passing l authors settled now (c.nextScope authors).2 := by
  obtain ⟨h₁, h₂, h₃⟩ := nextScope_frame c authors
  exact ⟨h₁.trans h.revision, h₂.trans h.indexRevision, h.pass.nextScope.1, fun t ht => h.waiting t (h₃ ▸ ht)⟩

omit [Primitives] in
/-- **What is saved of the pass.** -/
theorem Passing.saveScope {a : AuthorPressure} {selection : PressureSelection}
    (h : Passing l authors settled now c) (hready : ready)
    (hmono : ∀ t t' a, Sooner t t' → settled t a → settled t' a)
    (hscope : ∀ author, scope = some author → c.authorsDone = false ∧ c.selected = some author)
    (hblocked : ∀ author reason, scope = some author → selection = .blocked reason →
      settled (Db.saveScope t scope a record c selection).2.1.retryAt author) :
    CursorSound l authors ready settled (Db.saveScope t scope a record c selection).2.1 := by
  cases scope with
  | some author =>
    obtain ⟨hdone, hselected⟩ := hscope author rfl
    have hpass := h.pass.saveScope_author t record a hmono hdone hselected
      fun reason hreason => hblocked author reason rfl hreason
    have hframe : (Db.saveScope t (some author) a record c selection).2.1.revision = c.revision ∧
        (Db.saveScope t (some author) a record c selection).2.1.indexRevision = c.indexRevision := by
      unfold Db.saveScope
      cases selection <;> exact ⟨rfl, rfl⟩
    obtain ⟨hrevision, hindex⟩ := hframe
    refine ⟨fun n hn => ?_, fun n hn => ?_, fun hno => ?_, fun hno => ?_, fun _ => hready, fun _ _ _ => hpass⟩
    · exact (Option.some.inj (hn.symm.trans (hrevision.trans h.revision))).le
    · exact (Option.some.inj (hn.symm.trans (hindex.trans h.indexRevision))).le
    · exact absurd (hno.symm.trans (hindex.trans h.indexRevision)) (by simp)
    · exact absurd (hno.symm.trans (hrevision.trans h.revision)) (by simp)
  | none =>
    have hpass := h.pass.saveScope_global t record a selection
    revert hpass
    unfold Db.saveScope
    dsimp only
    split
    · exact fun _ => cursorSound_empty
    intro hpass
    have hgoes : Passing l authors settled now { c with globalScan := a.scan } :=
      ⟨h.revision, h.indexRevision, ⟨h.pass.behind, h.pass.selected⟩, h.waiting⟩
    have hsame : CursorSound l authors ready settled { c with globalScan := a.scan } := hgoes.sound hready
    cases selection with
    | blocked reason =>
      exact ⟨fun n hn => (by cases hn), hsame.indexKnown, fun _ => rfl, fun _ => ⟨rfl, rfl, rfl⟩,
        fun hno => (by cases hno), fun hno => (by cases hno)⟩
    | advanced => exact hsame
    | prune prune => exact hsame

omit [Primitives] in
theorem checkConfig_ready (h : checkConfig db l request = .ok ()) :
    (accountingTx db.accounting).stage = .ready := by
  unfold checkConfig at h
  split at h
  · cases h
  · unfold requirePayloadAccountingReadyTx at h
    by_contra hno
    rw [if_neg hno] at h
    cases h

omit [Primitives] in
theorem reconcile_dropped (h : c.reconcile l now = .ok (false, c')) : {} = c' := by
  unfold PressureCursor.reconcile at h
  split at h
  · cases h
  split at h
  · cases h
    rfl
  · cases h

theorem visitScope_visit {visit : PressureVisit}
    (h : (visitScope env db t l request now record c scope looks).visit = some visit) : visit.scope = scope := by
  unfold visitScope at h
  split at h
  · cases h
  · cases h
  split at h
  · cases h
  dsimp only at h
  split at h
  · split at h
    · cases h
      rfl
    · cases h
    · cases h
  · cases h
    rfl

/-- An author that a visit has left is settled. -/
def Settles (r : RetentionIndex) (settled : Option Timestamp → RostraId → Prop) (visit : Option PressureVisit) :
    Prop :=
  ∀ v author reason retry, visit = some v → v.scope = some author → v.selection = .blocked reason →
    (reason = .exhausted → ∀ key ∈ scopeKeys r (some author), ∃ t, retry = some t ∧ t ≤ dueAt r (some author) key) →
    settled retry author

/-- **A visit and the pass it belongs to.** -/
theorem visitScope_pass (hi : IndexReady D env db request.generation)
    (hready : retentionSelectionReadyTx db.retention request.generation now = true) (hcf : CollisionFree D)
    (hrecord : t.state = some record) (h : PressureSound D db.retention l.retentionRevision record.epoch t c)
    (hp : Passing l authors settled now c) (haccounting : ready)
    (hmono : ∀ t t' a, Sooner t t' → settled t a → settled t' a)
    (hscope : ∀ author, scope = some author → c.authorsDone = false ∧ c.selected = some author)
    (hsettles : Settles db.retention settled
      (visitScope env db t l request now record c scope looks).visit) :
    CursorSound l authors ready settled (visitScope env db t l request now record c scope looks).cursor := by
  rcases visitScope_cases scope looks hi hready hcf hrecord h with
    ⟨reply, heq⟩ | ⟨a, total, high, selection, hv, hcase⟩
  · rw [heq]
    exact hp.sound haccounting
  rcases hcase with ⟨reply, prune, rfl, heq⟩ | ⟨db', reply, heq, -⟩
  · rw [heq]
    exact hp.saveScope haccounting hmono hscope fun _ reason _ hno => by cases hno
  · rw [heq] at hsettles ⊢
    refine hp.saveScope haccounting hmono hscope fun author reason hauthor hblocked => ?_
    subst hauthor hblocked
    refine hsettles _ author reason _ rfl rfl rfl fun hexhausted key hkey => ?_
    subst hexhausted
    obtain ⟨hactive, hrests⟩ := hv.rests rfl
    obtain ⟨t', ht', hle⟩ := hrests key hkey
    obtain ⟨t'', ht'', hle'⟩ := (saveScope_author_retry t record a author _ c).2 hactive t' ht'
    exact ⟨t'', ht'', hle'.trans hle⟩

variable (request now) in
/-- **A step and the pass it belongs to.** In the end the cursor is one that later steps may go on with. -/
theorem pressureStep_pass (hk : KeyedBy D db.ev) (hx : Indexed env db db.retention) (hcf : CollisionFree D)
    (demands : DemandState) (h : PressureSound D db.retention l.retentionRevision epoch t c)
    (hc : CursorSound l db.accounting.authors.keys ((accountingTx db.accounting).stage = .ready) settled c)
    (hmono : ∀ t t' a, Sooner t t' → settled t a → settled t' a)
    (hsettles : Settles db.retention settled
      (pressureStepWith env db t l demands epoch request c now).visit) :
    CursorSound l db.accounting.authors.keys ((accountingTx db.accounting).stage = .ready) settled
      (pressureStepWith env db t l demands epoch request c now).cursor := by
  revert hsettles
  unfold pressureStepWith
  split
  · exact fun _ => hc
  next hselect =>
  have hready : retentionSelectionReadyTx db.retention request.generation now = true := by simpa using hselect
  have hi : IndexReady D env db request.generation := ⟨hk, hx, selectionReady_state hready⟩
  split
  · exact fun _ => hc
  · exact fun _ => hc
  next record hconfig hrecord =>
  obtain ⟨hstate, rfl⟩ := loadRecord_ok hrecord
  have haccounting := checkConfig_ready hconfig
  split
  · exact fun _ => hc
  · exact fun _ => hc
  split
  · exact fun _ => hc
  · next c' hreconcile => exact fun _ => (reconcile_dropped hreconcile) ▸ cursorSound_empty
  next c' hreconcile =>
  obtain ⟨hp, -⟩ := hc.reconcile hreconcile
  have hscan : ∀ s, c'.globalScan = some s → WalkSound D db.retention l.retentionRevision s := by
    intro s hs
    rcases reconcile_globalScan hreconcile with hnone | hsame
    · rw [hnone] at hs
      cases hs
    · exact h.global s (hsame ▸ hs)
  have hnext := hp.nextScope
  have hkept := nextScope_globalScan c' db.accounting.authors.keys
  have hauthor := hp.pass.nextScope.2.2
  split
  · next c'' hc'' =>
    rw [hc''] at hnext
    exact fun _ => hnext.sound haccounting
  · next author c'' hc'' =>
    rw [hc''] at hnext hkept hauthor
    refine visitScope_pass hi hready hcf hstate ⟨h.authors, fun s hs => hscan s (hkept ▸ hs)⟩ hnext haccounting
      hmono fun author' heq => ?_
    cases heq
    exact hauthor author rfl
  · next c'' hc'' =>
    rw [hc''] at hnext hkept
    exact visitScope_pass hi hready hcf hstate ⟨h.authors, fun s hs => hscan s (hkept ▸ hs)⟩ hnext haccounting
      hmono fun author' heq => by cases heq

/-- **The database is visited last**: every author of the account is settled, and nothing that was skipped on the
way is due. -/
theorem pressureStep_global {demands : DemandState} {visit : PressureVisit}
    (hc : CursorSound l db.accounting.authors.keys ((accountingTx db.accounting).stage = .ready) settled c)
    (hvisit : (pressureStepWith env db t l demands epoch request c now).visit = some visit)
    (hglobal : visit.scope = none) :
    (∀ a ∈ db.accounting.authors.keys, settled c.retryAt a) ∧ (∀ t, c.retryAt = some t → now < t) ∧
      retentionSelectionReadyTx db.retention request.generation now = true := by
  unfold pressureStepWith at hvisit
  split at hvisit
  · cases hvisit
  next hselect =>
  split at hvisit
  · cases hvisit
  · cases hvisit
  split at hvisit
  · cases hvisit
  · cases hvisit
  split at hvisit
  · cases hvisit
  · cases hvisit
  next c' hreconcile =>
  obtain ⟨hp, hretry⟩ := hc.reconcile hreconcile
  have hdone := hp.pass.nextScope.2.1
  split at hvisit
  · cases hvisit
  · rw [visitScope_visit hvisit] at hglobal
    cases hglobal
  · next c'' hc'' =>
    rw [hc''] at hdone
    exact ⟨fun a ha => hretry ▸ hdone rfl a ha, fun t ht => hp.waiting t (hretry ▸ ht), by simpa using hselect⟩

end Pass

end Rostra.Db
