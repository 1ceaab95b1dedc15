/-
# The forecast and the reference simulation

The dry run of the database and the simulation of `rostra-core` were written independently: one ranks
candidates by encoded 48-byte keys, flags what it took and walks on to the end, the other ranks by
structured keys, remembers a set and breaks off.  Both are shown to be the SAME plan of `Lib.Drain`,
over the same sorted list of retained events.

That the orders are the same rests on `Proofs.RetentionKey`, and that the simulation is the plan on
`Proofs.Simulation`.

* Section 1: what the scan over the headers collects.
* Section 2: the two passes of the projection are the two walks of the plan.
* Section 3: the candidates of the simulation are those of the scan.
* Section 4 compares the outcomes.

Neither of the two is a specification of the other. What is compared is a complete snapshot, one in which the scan
ended before its limit; an incomplete one says so, and makes no promise.
-/
import Rostra.Core.Simulation
import Rostra.Db.DryRun
import Rostra.Lib.Drain
import Rostra.Proofs.Books
import Rostra.Proofs.RetentionKey
import Rostra.Proofs.Simulation

namespace Rostra.Db

open Rostra Outcome

section Forecast

variable [Primitives] {run : DryRun} {db : Database}

/-! ## 1. What the scan collects

The scan goes over the headers in the order of their ids and builds candidates and sums. The invariant of the loop
is what it has collected from the keys so far. -/

/-- Who is charged for a row of the events table, and with what. -/
def rowAuthor (row : ShortEventId × Event) : RostraId := row.2.author

def rowBytes (row : ShortEventId × Event) : ℕ := row.2.contentLen

/-- The processed events among some keys. -/
def retainedAmong (t : EventTables) (ids : List ShortEventId) : List (ShortEventId × Event) :=
  ids.filterMap fun id => (t.events.get id).bind fun e =>
    if (t.eventsContentState.get id).isSome then none else some (id, e)

/-- **The retained events**, in the order of the table. -/
def retainedRows (t : EventTables) : List (ShortEventId × Event) :=
  retainedAmong t (t.events.keys.sort (· ≤ ·))

/-- Why an event is a candidate: its origins. -/
def DryRun.originOf (run : DryRun) (db : Database) (row : ShortEventId × Event) :
    Option RetentionOrigins :=
  if row.2.author = run.generation.holder ∨ row.2.kind ≠ EventKind.SOCIAL_POST ∨
      row.2.contentLen = 0 then none
  else (db.origins.get row.1).filter fun origin =>
    decide (origin.effectiveTimestamp ≤ run.now) &&
      run.generation.policy.graceElapsed origin.materializedAt run.now

/-- A candidate and its origins. -/
def DryRun.eligibleOf (run : DryRun) (db : Database) (row : ShortEventId × Event) :
    Option (Event × RetentionOrigins) :=
  (run.originOf db row).map fun origin => (row.2, origin)

/-- The candidate as the scan notes it. -/
def DryRun.toCandidate (run : DryRun) (p : Event × RetentionOrigins) : DryRunCandidate where
  key := run.generation.policy.key (computeId p.1) run.generation.holder p.1.contentLen
    p.2.effectiveTimestamp
  event := computeId p.1
  author := p.1.author
  bytes := p.1.contentLen
  removed := false
  detail :=
    { event := computeId p.1
      author := p.1.author
      bytes := p.1.contentLen
      ageSeconds := run.now - p.2.effectiveTimestamp
      distanceCreditTicks :=
        distanceCreditTicks run.generation.policy (computeId p.1) run.generation.holder }

/-- Headers are stored under their own ids. -/
def SelfKeyed (t : EventTables) : Prop :=
  ∀ id e, t.events.get id = some e → (VerifiedEvent.ofEvent e).id = id

theorem KeyedBy.selfKeyed {D : Set VerifiedEvent} {t : EventTables} (h : KeyedBy D t) :
    SelfKeyed t := by
  intro id e he
  obtain ⟨v, -, rfl, rfl⟩ := h id e he
  rw [VerifiedEvent.ofEvent_self]

/-- So they are in every database that was reached. -/
theorem reached_selfKeyed (env : Env) {D : Set VerifiedEvent} (hcf : CollisionFree D)
    (ops : List Op) (hD : DeliveredFrom D ops) : SelfKeyed (reached env ops).ev :=
  (reached_keeps env (balanced_keeps D) hcf balanced_empty ops hD).1.keyed.selfKeyed

theorem candidateOf_eq {id : ShortEventId} {e : Event} (h : (VerifiedEvent.ofEvent e).id = id) :
    run.candidateOf db id e = .ok ((run.eligibleOf db (id, e)).map run.toCandidate) := by
  unfold DryRun.candidateOf DryRun.eligibleOf DryRun.originOf
  split
  · rfl
  · cases horigin : db.origins.get id with
    | none => rfl
    | some origin =>
      dsimp only
      by_cases ht : run.now < origin.effectiveTimestamp ∨
          !run.generation.policy.graceElapsed origin.materializedAt run.now
      · rw [if_pos ht]
        rcases ht with ht | ht
        · simp [Option.filter, not_le.mpr ht]
        · simp [Option.filter, (by simpa using ht :
            run.generation.policy.graceElapsed origin.materializedAt run.now = false)]
      · rw [if_neg ht, if_neg (not_not.mpr h)]
        obtain ⟨ht, hg⟩ := not_or.mp ht
        have hg' : run.generation.policy.graceElapsed origin.materializedAt run.now = true := by
          simpa using hg
        simp [Option.filter, not_lt.mp ht, hg', DryRun.toCandidate, VerifiedEvent.ofEvent]

/-- The row of an author before the authors are triggered. -/
def DryRun.authorRow (run : DryRun) (author : RostraId) (bytes : ℕ) : DryRunAuthor :=
  ⟨bytes, run.config.authorBytesOf author, false⟩

/-- What the scan has collected from some keys. -/
structure Surveyed (run : DryRun) (db : Database) (ids : List ShortEventId) (s : DryRunScan) :
    Prop where
  total : s.total = ((retainedAmong db.ev ids).map rowBytes).sum
  authors : s.authors.get =
    Drain.Load.row rowAuthor rowBytes run.authorRow (retainedAmong db.ev ids)
  candidates : s.candidates =
    ((retainedAmong db.ev ids).filterMap (run.eligibleOf db)).map run.toCandidate

theorem surveyed_nil (run : DryRun) (db : Database) : Surveyed run db [] {} :=
  ⟨rfl, rfl, rfl⟩

/-- A key without a processed event adds nothing. -/
theorem Surveyed.skip {ids : List ShortEventId} {s s' : DryRunScan} {id : ShortEventId}
    (h : Surveyed run db ids s) (hnone : retainedAmong db.ev [id] = [])
    (htotal : s'.total = s.total) (hauthors : s'.authors = s.authors)
    (hcandidates : s'.candidates = s.candidates) : Surveyed run db (ids ++ [id]) s' := by
  have hsame : retainedAmong db.ev (ids ++ [id]) = retainedAmong db.ev ids := by
    rw [retainedAmong, List.filterMap_append]
    show retainedAmong db.ev ids ++ retainedAmong db.ev [id] = _
    rw [hnone, List.append_nil]
  constructor
  · rw [hsame, htotal]
    exact h.total
  · rw [hsame, hauthors]
    exact h.authors
  · rw [hsame, hcandidates]
    exact h.candidates

/-- A processed event is counted for its author. -/
theorem Surveyed.count {ids : List ShortEventId} {s s' : DryRunScan} {id : ShortEventId} {e : Event}
    (h : Surveyed run db ids s) (hrow : retainedAmong db.ev [id] = [(id, e)])
    (htotal : s'.total = s.total + e.contentLen)
    (hauthors : s'.authors = s.authors.insert e.author
      { (s.authors.get e.author).getD ⟨0, run.config.authorBytesOf e.author, false⟩ with
        bytes := ((s.authors.get e.author).getD ⟨0, run.config.authorBytesOf e.author, false⟩).bytes +
          e.contentLen })
    (hcandidates : s'.candidates =
      s.candidates ++ ((run.eligibleOf db (id, e)).map run.toCandidate).toList) :
    Surveyed run db (ids ++ [id]) s' := by
  have hsnoc : retainedAmong db.ev (ids ++ [id]) = retainedAmong db.ev ids ++ [(id, e)] := by
    rw [retainedAmong, List.filterMap_append]
    show retainedAmong db.ev ids ++ retainedAmong db.ev [id] = _
    rw [hrow]
  constructor
  · rw [hsnoc, htotal, h.total]
    simp [rowBytes]
  · have hentry : (s.authors.get e.author).getD ⟨0, run.config.authorBytesOf e.author, false⟩ =
        run.authorRow e.author
          ((Drain.Load.of rowAuthor rowBytes (retainedAmong db.ev ids)).usage e.author) := by
      rw [h.authors]
      exact Drain.Load.row_getD _ _ run.authorRow _ e.author
    rw [hsnoc, hauthors, Table.get_insert_eq, hentry, h.authors, Drain.Load.row_snoc]
    rfl
  · rw [hsnoc, hcandidates, h.candidates, List.filterMap_append, List.map_append]
    cases hrow : run.eligibleOf db (id, e) with
    | none => simp [hrow]
    | some p => simp [hrow]

theorem scanRow_surveyed (hkeyed : SelfKeyed db.ev) {ids : List ShortEventId} {s : DryRunScan}
    (h : Surveyed run db ids s) (id : ShortEventId) :
    Ensures (run.scanRow db s id) (Surveyed run db (ids ++ [id])) fun _ => True := by
  refine ensures_of_ok fun s' hok => ?_
  unfold DryRun.scanRow at hok
  split at hok
  · cases hok
  split at hok
  · cases hok
  split at hok
  · next hnone =>
    cases hok
    exact h.skip (by simp [retainedAmong, hnone]) rfl rfl rfl
  · next e he =>
    dsimp only at hok
    split at hok
    · next hstate =>
      cases hok
      exact h.skip (by simp [retainedAmong, he, hstate]) rfl rfl rfl
    · next hstate =>
      have hrow : retainedAmong db.ev [id] = [(id, e)] := by
        simp [retainedAmong, he, hstate]
      split at hok
      · cases hok
      next total htotal =>
      split at hok
      · cases hok
      split at hok
      · cases hok
      split at hok
      · cases hok
      next authors hauthors =>
      obtain ⟨candidate, hcandidate, hok⟩ := bind_eq_ok.mp hok
      rw [candidateOf_eq (hkeyed id e he)] at hcandidate
      cases hcandidate
      cases hok
      obtain ⟨sum, hsum, hauthors⟩ := bind_eq_ok.mp hauthors
      cases hauthors
      refine h.count hrow ((checkedAdd_ensures _ _ _).of_ok htotal) ?_ rfl
      rw [(checkedAdd_ensures _ _ _).of_ok hsum]

/-- **The scan collects every retained event**, if it gets to the end. The invariant is `Surveyed` for the keys
that it has passed. -/
theorem scanRows_surveyed (hkeyed : SelfKeyed db.ev) {s : DryRunScan}
    (h : run.scanRows db = .ok s) : Surveyed run db (db.ev.events.keys.sort (· ≤ ·)) s := by
  have hscan := Ensures.foldlM_history (J := Surveyed run db)
    (db.ev.events.keys.sort (· ≤ ·)) [] {} (f := run.scanRow db) (E := fun _ => True)
    (fun id _ done s hs => scanRow_surveyed hkeyed hs id) (surveyed_nil run db)
  rw [List.nil_append] at hscan
  exact hscan.of_ok h

/-! ## 2. The projection is a plan

The projection makes a pass over the candidates for the authors and one for the database. A pass does not stop when
the load is low enough, it goes on and takes nothing more; and this is the same walk. -/

/-- Who is charged for a candidate. -/
def ownerOf (p : Event × RetentionOrigins) : RostraId := p.1.author

/-- What it is charged with. -/
def lengthOf (p : Event × RetentionOrigins) : ℕ := p.1.contentLen

/-- The load of the retained events. -/
def retainedLoad (t : EventTables) : Drain.Load RostraId :=
  Drain.Load.of rowAuthor rowBytes (retainedRows t)

/-- The marks of a configuration. -/
def marksOf (config : PayloadAdmissionConfig) : Drain.Marks RostraId where
  high := config.authorBytesOf
  low a := experimentalLowWater (config.authorBytesOf a)
  globalHigh := config.databaseBytes
  globalLow := experimentalLowWater config.databaseBytes

/-- **The candidates in the order of their keys.** -/
def DryRun.ranked (run : DryRun) (db : Database) : List (Event × RetentionOrigins) :=
  ((retainedRows db.ev).filterMap (run.eligibleOf db)).mergeSort fun p q =>
    decide ((run.toCandidate p).key ≤ (run.toCandidate q).key)

/-- **What has to go**: the plan over the ranked candidates, at the load of everything that is retained. -/
def DryRun.planOf (run : DryRun) (db : Database) : Drain.Plan (Event × RetentionOrigins) RostraId :=
  Drain.plan ownerOf lengthOf (marksOf run.config) (retainedLoad db.ev) (run.ranked db)

/-- Is this candidate taken next? -/
def DryRun.presses (run : DryRun) (reason : QuotaPruneReason) (globalTriggered : Bool)
    (s : DryRun.Projecting) (c : DryRunCandidate) : Bool :=
  (s.authors.get c.author).any fun author => run.needed reason globalTriggered author s.remaining

/-- The state when it was taken. -/
def DryRun.take (reason : QuotaPruneReason) (s : DryRun.Projecting) (c : DryRunCandidate) :
    DryRun.Projecting where
  authors := (s.authors.get c.author).elim s.authors fun author =>
    s.authors.insert c.author { author with bytes := author.bytes - c.bytes }
  remaining := s.remaining - c.bytes
  victimBytes := s.victimBytes + c.bytes
  victims := s.victims ++ [(c.event, reason)]
  details := s.details ++ [c.detail]

/-- The candidates that no pass has taken. -/
def present (l : List DryRunCandidate) : List DryRunCandidate := l.filter fun c => !c.removed

omit [Primitives] in
/-- **A pass is a walk** over the candidates that are still there. The list that the code carries on has marks
where the walk has holes. -/
theorem projectPass_walk {reason : QuotaPruneReason} {globalTriggered : Bool}
    {s s' : DryRun.Projecting} {l l' : List DryRunCandidate}
    (h : run.projectPass reason globalTriggered s l = .ok (s', l')) :
    s' = (Drain.walk (run.presses reason globalTriggered) (DryRun.take reason) s (present l)).state ∧
      present l' =
        (Drain.walk (run.presses reason globalTriggered) (DryRun.take reason) s (present l)).kept := by
  induction l generalizing s s' l' with
  | nil =>
    cases h
    exact ⟨rfl, rfl⟩
  | cons c cs ih =>
    obtain ⟨⟨s₁, c₁⟩, hone, h⟩ := bind_eq_ok.mp h
    obtain ⟨⟨s₂, cs₂⟩, hrest, h⟩ := bind_eq_ok.mp h
    cases h
    obtain ⟨hstate, hkept⟩ := ih hrest
    unfold DryRun.projectOne at hone
    split at hone
    · cases hone
    split at hone
    · cases hone
    next author hauthor =>
    have hpress : run.presses reason globalTriggered s c =
        run.needed reason globalTriggered author s.remaining := by
      simp [DryRun.presses, hauthor]
    split at hone
    · next hspared =>
      cases hone
      by_cases hremoved : c.removed = true
      · have hpresent : present (c :: cs) = present cs := by simp [present, hremoved]
        have hpresent' : present (c :: cs₂) = present cs₂ := by simp [present, hremoved]
        rw [hpresent, hpresent']
        exact ⟨hstate, hkept⟩
      · have hneeded : run.presses reason globalTriggered s c = false := by
          rw [hpress]
          simpa [hremoved] using hspared
        have hpresent : present (c :: cs) = c :: present cs := by simp [present, hremoved]
        have hpresent' : present (c :: cs₂) = c :: present cs₂ := by simp [present, hremoved]
        rw [hpresent, hpresent', Drain.walk_cons_spared hneeded, hkept]
        exact ⟨hstate, rfl⟩
    · next htaken =>
      cases hone
      obtain ⟨hremoved, hneeded⟩ : c.removed = false ∧
          run.presses reason globalTriggered s c = true := by
        rw [hpress]
        simpa using htaken
      have hpresent : present (c :: cs) = c :: present cs := by simp [present, hremoved]
      have hpresent' : present ({ c with removed := true } :: cs₂) = present cs₂ := by
        simp [present]
      have htake : DryRun.take reason s c =
          { authors := s.authors.insert c.author { author with bytes := author.bytes - c.bytes }
            remaining := s.remaining - c.bytes
            victimBytes := s.victimBytes + c.bytes
            victims := s.victims ++ [(c.event, reason)]
            details := s.details ++ [c.detail] } := by
        simp [DryRun.take, hauthor]
      rw [← htake] at hstate hkept
      rw [hpresent, hpresent', Drain.walk_cons_pressed hneeded]
      exact ⟨hstate, hkept⟩

/-- The state of the projection against the load that is left, with the authors that were counted and
those that were triggered. -/
structure PassTracks (run : DryRun) (db : Database) (t : Drain.Load RostraId) (s : DryRun.Projecting) :
    Prop where
  total : s.remaining = t.total
  keys : ∀ a, (s.authors.get a).isSome ↔ a ∈ (retainedRows db.ev).map rowAuthor
  authors : ∀ a x, s.authors.get a = some x → x.bytes = t.usage a ∧
    x.high = run.config.authorBytesOf a ∧
    x.triggered = decide (run.config.authorBytesOf a < (retainedLoad db.ev).usage a)

/-- A candidate belongs to an author that was counted. -/
theorem mem_authors_of_ranked {p : Event × RetentionOrigins} (h : p ∈ run.ranked db) :
    ownerOf p ∈ (retainedRows db.ev).map rowAuthor := by
  obtain ⟨row, hrow, hp⟩ := List.mem_filterMap.mp (List.mem_mergeSort.mp h)
  obtain ⟨origin, -, rfl⟩ := Option.map_eq_some_iff.mp hp
  exact List.mem_map_of_mem hrow

/-- Taking a candidate drops it from the load. -/
theorem PassTracks.take {t : Drain.Load RostraId} {s : DryRun.Projecting} (h : PassTracks run db t s)
    (p : Event × RetentionOrigins) (reason : QuotaPruneReason) :
    PassTracks run db (t.drop ownerOf lengthOf p) (DryRun.take reason s (run.toCandidate p)) := by
  have hget : ∀ a, (DryRun.take reason s (run.toCandidate p)).authors.get a =
      if a = ownerOf p then (s.authors.get a).map fun x => { x with bytes := x.bytes - lengthOf p }
      else s.authors.get a := by
    intro a
    show ((s.authors.get (ownerOf p)).elim s.authors fun author =>
      s.authors.insert (ownerOf p) { author with bytes := author.bytes - lengthOf p }).get a = _
    cases hx : s.authors.get (ownerOf p) with
    | none =>
      by_cases ha : a = ownerOf p
      · simp [ha, hx]
      · simp [ha]
    | some x =>
      rw [Option.elim_some, Table.get_insert]
      by_cases ha : a = ownerOf p
      · simp [ha, hx]
      · simp [ha]
  constructor
  · show s.remaining - lengthOf p = t.total - lengthOf p
    rw [h.total]
  · intro a
    rw [hget, ← h.keys]
    split
    · simp
    · rfl
  · intro a x hx
    rw [hget] at hx
    simp only [Drain.Load.drop, Function.update_apply]
    split at hx
    · next ha =>
      obtain ⟨y, hy, rfl⟩ := Option.map_eq_some_iff.mp hx
      obtain ⟨hbytes, hhigh, htriggered⟩ := h.authors a y hy
      rw [if_pos ha, ← ha, ← hbytes]
      exact ⟨rfl, hhigh, htriggered⟩
    · next ha =>
      rw [if_neg ha]
      exact h.authors a x hx

/-- Under pressure in the plan, and so in the projection. -/
theorem PassTracks.pressOwner {t : Drain.Load RostraId} {s : DryRun.Projecting} (h : PassTracks run db t s)
    {p : Event × RetentionOrigins} (hp : p ∈ run.ranked db) (globalTriggered : Bool) :
    Drain.pressOwner ownerOf (marksOf run.config) (retainedLoad db.ev) t p =
      run.presses .authorQuota globalTriggered s (run.toCandidate p) := by
  obtain ⟨x, hx⟩ := Option.isSome_iff_exists.mp ((h.keys _).mpr (mem_authors_of_ranked hp))
  obtain ⟨hbytes, hhigh, htriggered⟩ := h.authors _ x hx
  have hx' : s.authors.get (run.toCandidate p).author = some x := hx
  dsimp only [Drain.pressOwner, marksOf]
  simp [DryRun.presses, hx', DryRun.needed, hbytes, hhigh, htriggered]

theorem PassTracks.pressAll {t between : Drain.Load RostraId} {s : DryRun.Projecting}
    (h : PassTracks run db t s) {p : Event × RetentionOrigins} (hp : p ∈ run.ranked db) :
    Drain.pressAll (marksOf run.config) between t p =
      run.presses .globalQuota (decide (run.config.databaseBytes < between.total)) s
        (run.toCandidate p) := by
  obtain ⟨x, hx⟩ := Option.isSome_iff_exists.mp ((h.keys _).mpr (mem_authors_of_ranked hp))
  have hx' : s.authors.get (run.toCandidate p).author = some x := hx
  dsimp only [Drain.pressAll, marksOf]
  simp [DryRun.presses, hx', DryRun.needed, h.total]

omit [Primitives] in
/-- The victims of a walk are noted in its order. -/
theorem take_victims (reason : QuotaPruneReason) (l : List DryRunCandidate)
    (s : DryRun.Projecting) :
    (l.foldl (DryRun.take reason) s).victims = s.victims ++ l.map fun c => (c.event, reason) := by
  induction l generalizing s with
  | nil => simp
  | cons c cs ih =>
    rw [List.foldl_cons, ih]
    simp [DryRun.take]

/-- **What a complete snapshot projects**: the victims of both walks with their reasons, and what is left. -/
structure Forecasts (run : DryRun) (db : Database) (projection : DryRunProjection) : Prop where
  victims : projection.victims =
    (run.planOf db).owners.map (fun p => (computeId p.1, .authorQuota)) ++
      (run.planOf db).everyone.map fun p => (computeId p.1, .globalQuota)
  remaining : projection.logicalRemainingBytes = (run.planOf db).rest.total
  unmetAuthors : projection.unmetAuthors =
    (((retainedRows db.ev).map rowAuthor).toFinset.filter fun a =>
      run.config.authorBytesOf a < (retainedLoad db.ev).usage a ∧
        experimentalLowWater (run.config.authorBytesOf a) < (run.planOf db).rest.usage a).card
  unmetGlobal : projection.unmetGlobal =
    (decide (run.config.databaseBytes < (run.planOf db).between.total) &&
      decide (experimentalLowWater run.config.databaseBytes < (run.planOf db).rest.total))

/-- The scan gives the projection its load. -/
theorem Surveyed.tracks {s : DryRunScan}
    (h : Surveyed run db (db.ev.events.keys.sort (· ≤ ·)) s) :
    PassTracks run db (retainedLoad db.ev)
      { authors := DryRun.trigger s.authors, remaining := s.total } := by
  have hget : ∀ a, (DryRun.trigger s.authors).get a = (s.authors.get a).map fun x =>
      { x with triggered := decide (x.high < x.bytes) } := fun a => Table.get_mapValues _ _ a
  constructor
  · exact h.total
  · intro a
    show ((DryRun.trigger s.authors).get a).isSome ↔ _
    rw [hget, Option.isSome_map, h.authors]
    exact Drain.Load.row_isSome _ _ _ _ a
  · intro a x hx
    replace hx : (DryRun.trigger s.authors).get a = some x := hx
    rw [hget, h.authors] at hx
    obtain ⟨y, hy, rfl⟩ := Option.map_eq_some_iff.mp hx
    obtain rfl := Drain.Load.row_eq_some _ _ hy
    exact ⟨rfl, rfl, rfl⟩

omit [Primitives] in
/-- The authors whose target is not met. -/
theorem PassTracks.unmet {t : Drain.Load RostraId} {s : DryRun.Projecting} (h : PassTracks run db t s) :
    (s.authors.keys.filter fun a => (s.authors.get a).any DryRun.unmet).card =
      (((retainedRows db.ev).map rowAuthor).toFinset.filter fun a =>
        run.config.authorBytesOf a < (retainedLoad db.ev).usage a ∧
          experimentalLowWater (run.config.authorBytesOf a) < t.usage a).card := by
  congr 1
  ext a
  rw [Finset.mem_filter, Finset.mem_filter, List.mem_toFinset, ← h.keys, Table.mem_keys,
    Option.isSome_iff_exists]
  refine and_congr_right fun ha => ?_
  obtain ⟨x, hx⟩ := ha
  obtain ⟨hbytes, hhigh, htriggered⟩ := h.authors a x hx
  rw [hx]
  simp [DryRun.unmet, hbytes, hhigh, htriggered]

/-- The sorted candidates of the scan are those of the plan. -/
theorem Surveyed.sorted {s : DryRunScan}
    (h : Surveyed run db (db.ev.events.keys.sort (· ≤ ·)) s) :
    (s.candidates.mergeSort fun a b => decide (a.key ≤ b.key)) =
      (run.ranked db).map run.toCandidate := by
  rw [h.candidates, DryRun.ranked]
  exact (List.map_mergeSort (f := run.toCandidate) fun _ _ _ _ => rfl).symm

/-- **The projection follows the plan**, from what the scan has collected. -/
theorem project_forecasts {scan : DryRunScan} {projection : DryRunProjection}
    (hscan : Surveyed run db (db.ev.events.keys.sort (· ≤ ·)) scan)
    (h : run.project scan = .ok projection) : Forecasts run db projection := by
  obtain ⟨⟨s₁, l₁⟩, hfirst, h⟩ := bind_eq_ok.mp h
  obtain ⟨⟨s₂, l₂⟩, hsecond, h⟩ := bind_eq_ok.mp h
  simp only at h
  split at h
  · cases h
  cases h
  rw [hscan.sorted] at hfirst
  have hall : present ((run.ranked db).map run.toCandidate) =
      (run.ranked db).map run.toCandidate := by
    refine List.filter_eq_self.mpr fun c hc => ?_
    obtain ⟨p, -, rfl⟩ := List.mem_map.mp hc
    rfl
  -- the owners
  obtain ⟨hstate₁, hkept₁⟩ := projectPass_walk hfirst
  rw [hall] at hstate₁ hkept₁
  obtain ⟨hevicted, hkept, htracks⟩ := Drain.walk_sim (PassTracks run db) run.toCandidate
    (Drain.pressOwner ownerOf (marksOf run.config) (retainedLoad db.ev))
    (Drain.Load.drop ownerOf lengthOf)
    (run.presses .authorQuota (decide (run.config.databaseBytes < scan.total)))
    (DryRun.take .authorQuota) (l := run.ranked db) (fun t s hts p hp => hts.pressOwner hp _) (fun t s hts p _ _ => hts.take p _) hscan.tracks
  rw [← hstate₁] at htracks
  rw [← hkept₁] at hkept
  -- everyone
  obtain ⟨hstate₂, -⟩ := projectPass_walk hsecond
  have hbetween : s₁.remaining = (run.planOf db).between.total := htracks.total
  rw [hkept, hbetween] at hstate₂
  obtain ⟨hevicted₂, -, htracks₂⟩ := Drain.walk_sim (PassTracks run db) run.toCandidate
    (Drain.pressAll (marksOf run.config) (run.planOf db).between)
    (Drain.Load.drop ownerOf lengthOf)
    (run.presses .globalQuota (decide (run.config.databaseBytes < (run.planOf db).between.total)))
    (DryRun.take .globalQuota)
    (l := (Drain.walk (Drain.pressOwner ownerOf (marksOf run.config) (retainedLoad db.ev))
      (Drain.Load.drop ownerOf lengthOf) (retainedLoad db.ev) (run.ranked db)).kept)
    (fun t s hts p hp => hts.pressAll (Drain.walk_kept_sublist.subset hp))
    (fun t s hts p _ _ => hts.take p _) htracks
  rw [← hstate₂] at htracks₂
  constructor
  · show s₂.victims = _
    rw [hstate₂, Drain.walk_state, take_victims, hevicted₂, hstate₁, Drain.walk_state, take_victims,
      hevicted, List.nil_append, List.map_map, List.map_map]
    rfl
  · exact htracks₂.total
  · exact htracks₂.unmet
  · show (decide (run.config.databaseBytes < s₁.remaining) &&
      decide (experimentalLowWater run.config.databaseBytes < s₂.remaining)) = _
    rw [hbetween, htracks₂.total]
    rfl

/-- **A complete snapshot follows the plan.** Nothing is said of one that has stopped early. -/
theorem snapshot_forecasts (hkeyed : SelfKeyed db.ev) {env : Env} {ledger : AdmissionState}
    {demands : ℕ × ℕ} {report : DryRunReport} (h : run.snapshot env db ledger demands = .ok report)
    (hcomplete : report.status = .complete) :
    ∃ projection, report.projection = some projection ∧ Forecasts run db projection := by
  unfold DryRun.snapshot at h
  split at h
  · cases h
  split at h
  · cases h
    cases hcomplete
  next record hrecord =>
  split at h
  · next status visited hunfinished hstop =>
    cases h
    exact absurd hcomplete hunfinished
  · obtain ⟨scan, hscan, h⟩ := bind_eq_ok.mp h
    split at h
    · cases h
    split at h
    · next projection hproject =>
      cases h
      exact ⟨projection, rfl, project_forecasts (scanRows_surveyed hkeyed hscan) hproject⟩
    · cases h
    · cases h

/-! ## 3. The simulation is a plan

The simulation is given all retained events and rejects those which are protected. It orders the rest by their
structured keys, while the scan orders encoded ones. -/

/-- A retained event as the simulation is given it: protected when it is local, not a post, without
origins or from the future. -/
def DryRun.reference (run : DryRun) (db : Database) (row : ShortEventId × Event) :
    Simulation.Candidate where
  event := computeId row.2
  author := row.2.author
  contentLen := row.2.contentLen
  effectiveTimestamp := ((db.origins.get row.1).map (·.effectiveTimestamp)).getD 0
  firstMaterialized := (db.origins.get row.1).bind (·.materializedAt)
  isProtected := decide (row.2.author = run.generation.holder) ||
    decide (row.2.kind ≠ EventKind.SOCIAL_POST) ||
    !(db.origins.get row.1).any fun origin => decide (origin.effectiveTimestamp ≤ run.now)

/-- **One candidate for each retained event.** -/
def DryRun.references (run : DryRun) (db : Database) : List Simulation.Candidate :=
  (retainedRows db.ev).map (run.reference db)

/-- The same of an event that is eligible. -/
def referenceOf (p : Event × RetentionOrigins) : Simulation.Candidate where
  event := computeId p.1
  author := p.1.author
  contentLen := p.1.contentLen
  effectiveTimestamp := p.2.effectiveTimestamp
  firstMaterialized := p.2.materializedAt
  isProtected := false

theorem eligible_reference (row : ShortEventId × Event) :
    Simulation.eligible run.generation.policy run.now (run.reference db row) =
      (run.originOf db row).isSome := by
  rw [Bool.eq_iff_iff]
  unfold DryRun.originOf
  split
  · next h =>
    rcases h with h | h | h <;> simp [Simulation.eligible, DryRun.reference, h]
  · next h =>
    obtain ⟨hauthor, hkind, hlen⟩ : row.2.author ≠ run.generation.holder ∧
        row.2.kind = EventKind.SOCIAL_POST ∧ row.2.contentLen ≠ 0 := by
      simpa [not_or] using h
    cases horigin : db.origins.get row.1 with
    | none => simp [Simulation.eligible, DryRun.reference, horigin]
    | some origin =>
      simp [Simulation.eligible, DryRun.reference, horigin, hauthor, hkind, hlen]

theorem reference_eq {row : ShortEventId × Event} {origin : RetentionOrigins}
    (h : run.originOf db row = some origin) :
    run.reference db row = referenceOf (row.2, origin) := by
  unfold DryRun.originOf at h
  split at h
  · cases h
  · next hprotected =>
    obtain ⟨hauthor, hkind, -⟩ : row.2.author ≠ run.generation.holder ∧
        row.2.kind = EventKind.SOCIAL_POST ∧ row.2.contentLen ≠ 0 := by
      simpa [not_or] using hprotected
    obtain ⟨horigin, htime⟩ := Option.filter_eq_some_iff.mp h
    have hpast : origin.effectiveTimestamp ≤ run.now := by
      simp only [Bool.and_eq_true, decide_eq_true_eq] at htime
      exact htime.1
    simp [DryRun.reference, referenceOf, horigin, hauthor, hkind, hpast]

/-- The eligible references are those of the candidates. -/
theorem filter_references (rows : List (ShortEventId × Event)) :
    (rows.map (run.reference db)).filter
        (Simulation.eligible run.generation.policy run.now) =
      (rows.filterMap (run.eligibleOf db)).map referenceOf := by
  induction rows with
  | nil => rfl
  | cons row rows ih =>
    rw [List.map_cons, List.filter_cons, eligible_reference, ih, List.filterMap_cons]
    cases h : run.originOf db row with
    | none => simp [DryRun.eligibleOf, h]
    | some origin => simp [DryRun.eligibleOf, h, reference_eq h]

/-- The numbers are those of their machine types: 32-bit parameters and lengths, 64-bit times and
256-bit ids. -/
structure Representable (run : DryRun) (db : Database) : Prop where
  policy : run.generation.policy.Fits
  events : ∀ id e, db.ev.events.get id = some e → e.contentLen < 2 ^ 32 ∧ EventId.Full (computeId e)
  origins : ∀ id origin, db.origins.get id = some origin → origin.effectiveTimestamp < 2 ^ 64

omit [Primitives] in
theorem mem_retainedRows {row : ShortEventId × Event} (h : row ∈ retainedRows db.ev) :
    db.ev.events.get row.1 = some row.2 := by
  obtain ⟨id, -, hrow⟩ := List.mem_filterMap.mp h
  obtain ⟨e, he, hrow⟩ := Option.bind_eq_some_iff.mp hrow
  split at hrow
  · cases hrow
  · cases hrow
    exact he

/-- A candidate comes from a row and its origins. -/
theorem mem_ranked_row {p : Event × RetentionOrigins} (h : p ∈ run.ranked db) :
    ∃ id, db.ev.events.get id = some p.1 ∧ db.origins.get id = some p.2 := by
  obtain ⟨row, hrow, hp⟩ := List.mem_filterMap.mp (List.mem_mergeSort.mp h)
  obtain ⟨origin, horigin, rfl⟩ := Option.map_eq_some_iff.mp hp
  refine ⟨row.1, mem_retainedRows hrow, ?_⟩
  unfold DryRun.originOf at horigin
  split at horigin
  · cases horigin
  · exact (Option.filter_eq_some_iff.mp horigin).1

/-- Candidates are told apart by their events. -/
theorem ranked_event_inj (hkeyed : SelfKeyed db.ev) {p q : Event × RetentionOrigins}
    (hp : p ∈ run.ranked db) (hq : q ∈ run.ranked db) (h : computeId p.1 = computeId q.1) :
    p = q := by
  obtain ⟨id, hid, horigin⟩ := mem_ranked_row hp
  obtain ⟨id', hid', horigin'⟩ := mem_ranked_row hq
  have hsame : id = id' := by
    rw [← hkeyed id _ hid, ← hkeyed id' _ hid']
    exact congrArg EventId.toShort h
  subst hsame
  have hevent : p.1 = q.1 := Option.some.inj (hid.symm.trans hid')
  have horigins : p.2 = q.2 := Option.some.inj (horigin.symm.trans horigin')
  exact Prod.ext hevent horigins

/-- The structured key of a candidate. -/
def DryRun.structuredKey (run : DryRun) (p : Event × RetentionOrigins) : RetentionKey :=
  Simulation.keyOf run.generation.policy run.generation.holder (referenceOf p)

theorem structuredKey_fits (hrep : Representable run db) {p : Event × RetentionOrigins}
    (hp : p ∈ run.ranked db) : (run.structuredKey p).Fits := by
  obtain ⟨id, hid, horigin⟩ := mem_ranked_row hp
  obtain ⟨hlen, hfull⟩ := hrep.events id _ hid
  have htime := hrep.origins id _ horigin
  exact ⟨(keyTicks_fits hrep.policy hlen htime).1, (keyTicks_fits hrep.policy hlen htime).2, hfull⟩

/-- **Both rankings are the same.** Encoded keys are compared as bytes and structured ones by their fields, and
within the widths of their types this is one order. -/
theorem ranked_structured (hrep : Representable run db) :
    (run.ranked db).Pairwise fun p q => run.structuredKey p ≤ run.structuredKey q := by
  have hsorted : (run.ranked db).Pairwise fun p q =>
      (run.toCandidate p).key ≤ (run.toCandidate q).key :=
    Drain.pairwise_sorted (fun p => (run.toCandidate p).key) _
  refine hsorted.imp_of_mem fun {p q} hp hq hle => ?_
  exact (RetentionKey.toBytes_le_iff (structuredKey_fits hrep hp) (structuredKey_fits hrep hq)).mp
    hle

/-- The candidates of the simulation, in its order. -/
theorem simulation_ranked (hkeyed : SelfKeyed db.ev) (hrep : Representable run db)
    {cs : List Simulation.Candidate} (hperm : cs.Perm (run.references db)) :
    ((((cs.filter (Simulation.eligible run.generation.policy run.now)).map fun c =>
        (Simulation.keyOf run.generation.policy run.generation.holder c, c)).mergeSort
          fun a b => decide (a.1 ≤ b.1)).map Prod.snd) = (run.ranked db).map referenceOf := by
  have hfilter : (cs.filter (Simulation.eligible run.generation.policy run.now)).Perm
      ((run.ranked db).map referenceOf) := by
    refine (hperm.filter _).trans ?_
    rw [DryRun.references, filter_references]
    exact ((List.mergeSort_perm _ _).map referenceOf).symm
  have hranked : ((cs.filter (Simulation.eligible run.generation.policy run.now)).map fun c =>
      (Simulation.keyOf run.generation.policy run.generation.holder c, c)).Perm
      ((run.ranked db).map fun p => (run.structuredKey p, referenceOf p)) := by
    have hmap := hfilter.map fun c =>
      (Simulation.keyOf run.generation.policy run.generation.holder c, c)
    rw [List.map_map] at hmap
    exact hmap
  have heq : (((cs.filter (Simulation.eligible run.generation.policy run.now)).map fun c =>
      (Simulation.keyOf run.generation.policy run.generation.holder c, c)).mergeSort
        fun a b => decide (a.1 ≤ b.1)) =
      (run.ranked db).map fun p => (run.structuredKey p, referenceOf p) := by
    refine List.Perm.eq_of_pairwise ?_ (Drain.pairwise_sorted Prod.fst _)
      (List.pairwise_map.mpr (ranked_structured hrep)) ((List.mergeSort_perm _ _).trans hranked)
    intro a b ha hb hab hba
    obtain ⟨p, hp, rfl⟩ := List.mem_map.mp (hranked.mem_iff.mp (List.mem_mergeSort.mp ha))
    obtain ⟨q, hq, rfl⟩ := List.mem_map.mp hb
    have hkey : run.structuredKey p = run.structuredKey q := le_antisymm hab hba
    rw [ranked_event_inj hkeyed hp hq (congrArg (fun k => (ofLex k).2) hkey)]
  rw [heq, List.map_map]
  rfl

theorem events_nodup (hkeyed : SelfKeyed db.ev) :
    ((run.references db).map (·.event)).Nodup := by
  have hids : ((retainedRows db.ev).map Prod.fst).Nodup := by
    unfold retainedRows retainedAmong
    rw [List.map_filterMap]
    refine List.Nodup.filterMap (fun id id' k hk hk' => ?_) (Finset.sort_nodup _ _)
    have hown : ∀ i, k ∈ Option.map Prod.fst ((db.ev.events.get i).bind fun e =>
        if (db.ev.eventsContentState.get i).isSome then none else some (i, e)) → k = i := by
      intro i hi
      obtain ⟨row, hrow, rfl⟩ := Option.map_eq_some_iff.mp hi
      obtain ⟨e, -, hrow⟩ := Option.bind_eq_some_iff.mp hrow
      split at hrow
      · cases hrow
      · cases hrow
        rfl
    exact (hown id hk).symm.trans (hown id' hk')
  rw [DryRun.references, List.map_map]
  refine List.Nodup.of_map EventId.toShort ?_
  rw [List.map_map]
  have hshort : (retainedRows db.ev).map (EventId.toShort ∘ (fun c : Simulation.Candidate => c.event) ∘
      run.reference db) = (retainedRows db.ev).map Prod.fst :=
    List.map_congr_left fun row hrow => hkeyed _ _ (mem_retainedRows hrow)
  rw [hshort]
  exact hids

/-- The budgets are the marks of a configuration that treats all authors alike. -/
structure Budgets (config : PayloadAdmissionConfig) (author global : Simulation.Budget) : Prop where
  high : ∀ a, config.authorBytesOf a = author.high
  low : experimentalLowWater author.high = author.low
  globalHigh : config.databaseBytes = global.high
  globalLow : experimentalLowWater global.high = global.low

/-- **The simulation follows the plan**, whatever the order of its input. The protected ones are among the input
and not among the candidates. -/
theorem simulate_plan (hkeyed : SelfKeyed db.ev) (hrep : Representable run db)
    {cs : List Simulation.Candidate} (hperm : cs.Perm (run.references db))
    {author global : Simulation.Budget} (hbudgets : Budgets run.config author global) :
    ∃ outcome, Simulation.simulate run.generation.policy run.generation.holder run.now cs author
        global = .ok outcome ∧
      outcome.evicted = ((run.planOf db).owners ++ (run.planOf db).everyone).map
        (fun p => computeId p.1) ∧
      outcome.retainedBytes = (run.planOf db).rest.total ∧
      outcome.unmetAuthors = ((retainedRows db.ev).map rowAuthor).toFinset.filter (fun a =>
        run.config.authorBytesOf a < (retainedLoad db.ev).usage a ∧
          experimentalLowWater (run.config.authorBytesOf a) < (run.planOf db).rest.usage a) ∧
      outcome.unmetGlobal =
        (decide (run.config.databaseBytes < (run.planOf db).between.total) &&
          decide (experimentalLowWater run.config.databaseBytes < (run.planOf db).rest.total)) := by
  have hnodup : (cs.map (·.event)).Nodup := ((hperm.map _).nodup_iff).mpr (events_nodup hkeyed)
  have hload : Simulation.load cs = retainedLoad db.ev := by
    rw [Simulation.load, Drain.Load.of_perm _ _ hperm, DryRun.references, Drain.Load.of_map]
    rfl
  have hauthors : (cs.map Simulation.Candidate.author).toFinset =
      ((retainedRows db.ev).map rowAuthor).toFinset := by
    rw [List.toFinset_eq_of_perm _ _ (hperm.map Simulation.Candidate.author), DryRun.references,
      List.map_map]
    rfl
  have hmarks : Simulation.marks author global = marksOf run.config := by
    have hhigh : run.config.authorBytesOf = fun _ => author.high := funext hbudgets.high
    simp only [Simulation.marks, marksOf, hhigh, hbudgets.low, hbudgets.globalHigh, hbudgets.globalLow]
  have hplan : Simulation.planOf run.generation.policy run.generation.holder run.now cs author global =
      ⟨(run.planOf db).owners.map referenceOf, (run.planOf db).everyone.map referenceOf,
        (run.planOf db).between, (run.planOf db).rest⟩ := by
    rw [Simulation.planOf, Simulation.rankedOf, simulation_ranked hkeyed hrep hperm, hload, hmarks,
      Drain.plan_map]
    rfl
  refine ⟨_, Simulation.simulate_eq _ _ _ hnodup author global, ?_, ?_, ?_, ?_⟩
  · simp only [Simulation.outcomeOf, hplan, ← List.map_append, List.map_map]
    rfl
  · simp only [Simulation.outcomeOf, hplan]
  · simp only [Simulation.outcomeOf, hplan, hload, hauthors, hbudgets.high, hbudgets.low]
  · simp only [Simulation.outcomeOf, hplan, hbudgets.globalHigh, hbudgets.globalLow]

/-! ## 4. The agreement

Both are the plan of the same load and the same list; so they take the same victims, in the same order. -/

omit [Primitives] in
theorem experimentalLowWater_eq (high : ℕ) : experimentalLowWater high = 9 * high / 10 := by
  unfold experimentalLowWater
  omega

omit [Primitives] in
theorem experimentalLowWater_lt {high : ℕ} (h : 0 < high) : experimentalLowWater high < high := by
  rw [experimentalLowWater_eq]
  omega

omit [Primitives] in
/-- A ceiling and its low mark are a budget. -/
theorem exists_budget {high : ℕ} (h : 0 < high) :
    ∃ budget, Simulation.Budget.new high (experimentalLowWater high) = some budget ∧
      budget.high = high ∧ budget.low = experimentalLowWater high := by
  have hvalid : 0 < high ∧ experimentalLowWater high < high := ⟨h, experimentalLowWater_lt h⟩
  exact ⟨⟨high, _, hvalid.1, hvalid.2⟩, dif_pos hvalid, rfl, rfl⟩

/-- What a projection and an outcome have in common. -/
structure Agrees (projection : DryRunProjection) (outcome : Simulation.Outcome) : Prop where
  victims : projection.victims.map Prod.fst = outcome.evicted
  remaining : projection.logicalRemainingBytes = outcome.retainedBytes
  unmetAuthors : projection.unmetAuthors = outcome.unmetAuthors.card
  unmetGlobal : projection.unmetGlobal = outcome.unmetGlobal

/-- **A complete snapshot agrees with the reference simulation**, given the retained events in any
order and the configured ceilings with their low marks, and a low mark is nine tenths of its ceiling,
computed within 64 bits.

The ceilings are positive by their types, and the numbers of the policy and of the events are those
of their types (`Representable`).  That headers are stored under their own ids holds of
every database that was reached (`reached_selfKeyed`). -/
theorem dryRun_agrees (run : DryRun) {env : Env} {db : Database} (hkeyed : SelfKeyed db.ev)
    (hrep : Representable run db) (hcommon : ∀ a, run.config.overrides.get a = none)
    (hauthor : 0 < run.config.authorBytes) (hdatabase : 0 < run.config.databaseBytes)
    {ledger : AdmissionState} {demands : ℕ × ℕ} {report : DryRunReport}
    (h : run.snapshot env db ledger demands = .ok report) (hcomplete : report.status = .complete) :
    (∃ projection author global, report.projection = some projection ∧
      Simulation.Budget.new run.config.authorBytes
        (experimentalLowWater run.config.authorBytes) = some author ∧
      Simulation.Budget.new run.config.databaseBytes
        (experimentalLowWater run.config.databaseBytes) = some global ∧
      ∀ candidates : List Simulation.Candidate, candidates.Perm (run.references db) →
        ∃ outcome, Simulation.simulate run.generation.policy run.generation.holder run.now
          candidates author global = .ok outcome ∧ Agrees projection outcome) ∧
    ∀ high, 0 < high → high ≤ u64Max →
      experimentalLowWater high = 9 * high / 10 ∧ experimentalLowWater high < high ∧
        high / 10 * 9 ≤ u64Max ∧ high % 10 * 9 ≤ u64Max ∧
        high / 10 * 9 + high % 10 * 9 / 10 ≤ u64Max := by
  constructor
  · obtain ⟨projection, hprojection, hforecasts⟩ := snapshot_forecasts hkeyed h hcomplete
    obtain ⟨author, hnewAuthor, hhigh, hlow⟩ := exists_budget hauthor
    obtain ⟨global, hnewGlobal, hglobalHigh, hglobalLow⟩ := exists_budget hdatabase
    have hbudgets : Budgets run.config author global := by
      constructor
      · intro a
        rw [PayloadAdmissionConfig.authorBytesOf, hcommon a, hhigh]
        rfl
      · rw [hhigh, hlow]
      · exact hglobalHigh.symm
      · rw [hglobalHigh, hglobalLow]
    refine ⟨projection, author, global, hprojection, hnewAuthor, hnewGlobal, ?_⟩
    intro candidates hperm
    obtain ⟨outcome, hsimulate, hevicted, hretained, hunmet, hglobal⟩ :=
      simulate_plan hkeyed hrep hperm hbudgets
    refine ⟨outcome, hsimulate, ?_⟩
    constructor
    · rw [hforecasts.victims, hevicted, List.map_append, List.map_append, List.map_map, List.map_map]
      rfl
    · rw [hforecasts.remaining, hretained]
    · rw [hforecasts.unmetAuthors, hunmet]
    · rw [hforecasts.unmetGlobal, hglobal]
  · intro high hpos hle
    have hmax : u64Max = 2 ^ 64 - 1 := rfl
    refine ⟨experimentalLowWater_eq high, experimentalLowWater_lt hpos, ?_, ?_, ?_⟩
    · omega
    · omega
    · omega

end Forecast

section Sample

attribute [local instance] Primitives.reference

/-- A post of two bytes. -/
def sampleHeld : List Op := [.ingest [.payload samplePayload 5 {}], .rebuildAccounting 100]

/-- One byte for each author. -/
def sampleDryRun : DryRun where
  config := ⟨100, 1, ∅, 8, 1000, eight_le_maintenanceMax⟩
  limits := ⟨10, 10, 100⟩
  generation := ⟨samplePolicy, sampleEnv.selfId⟩
  now := 100
  expired _ := false

theorem sampleHeld_representable : Representable sampleDryRun (reached sampleEnv sampleHeld) := by
  constructor
  · constructor <;> decide
  · intro id e h
    have hall : ∀ id ∈ (reached sampleEnv sampleHeld).ev.events.keys,
        ((reached sampleEnv sampleHeld).ev.events.get id).all
          (fun e => decide (e = samplePost)) := by decide +kernel
    have hid := hall id (Table.mem_keys_of_get h)
    rw [h] at hid
    obtain rfl : e = samplePost := by simpa using hid
    exact ⟨by decide, by decide, by decide⟩
  · intro id origin h
    have hall : ∀ id ∈ (reached sampleEnv sampleHeld).origins.keys,
        ((reached sampleEnv sampleHeld).origins.get id).all
          (fun o => decide (o.effectiveTimestamp < 2 ^ 64)) := by decide +kernel
    have hid := hall id (Table.mem_keys_of_get h)
    rw [h] at hid
    simpa using hid

/-- The post goes. -/
theorem dryRun_agrees_sampleHeld :
    ∃ report projection outcome,
      sampleDryRun.snapshot sampleEnv (reached sampleEnv sampleHeld) {} (0, 0) = .ok report ∧
      report.status = .complete ∧ report.projection = some projection ∧
      Agrees projection outcome ∧ outcome.evicted = [computeId samplePost] := by
  have hreport : (sampleDryRun.snapshot sampleEnv (reached sampleEnv sampleHeld) {}
      (0, 0)).toOption.map (fun report =>
        (report.status, report.projection.map fun p => p.victims.map Prod.fst)) =
        some (.complete, some [computeId samplePost]) := by decide +kernel
  have hkeyed : SelfKeyed (reached sampleEnv sampleHeld).ev :=
    reached_selfKeyed sampleEnv (collisionFree_envelopesOf (by decide)) sampleHeld
      (deliveredFrom_envelopesOf sampleHeld)
  cases h : sampleDryRun.snapshot sampleEnv (reached sampleEnv sampleHeld) {} (0, 0) with
  | error stop =>
    rw [h] at hreport
    cases hreport
  | ok report =>
    rw [h] at hreport
    simp only [Except.toOption, Option.map_some, Option.some.injEq, Prod.mk.injEq] at hreport
    obtain ⟨⟨projection, author, global, hprojection, -, -, hsimulate⟩, -⟩ :=
      dryRun_agrees sampleDryRun hkeyed sampleHeld_representable (fun _ => rfl) (by decide)
        (by decide) h hreport.1
    obtain ⟨outcome, -, hagrees⟩ := hsimulate _ (List.Perm.refl _)
    refine ⟨report, projection, outcome, rfl, hreport.1, hprojection, hagrees, ?_⟩
    rw [← hagrees.victims]
    simpa [hprojection] using hreport.2

end Sample

end Rostra.Db
