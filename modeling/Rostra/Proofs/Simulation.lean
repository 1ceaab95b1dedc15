/-
# The simulation drops the shortest front parts

The two eviction loops of the simulation are the two walks of a plan (`Lib.Drain`) over the ranked
candidates.  A plan drops of each owner above its high mark the shortest front part that is enough, and then
the same of everyone; this is what the loops are for.

* Section 1: what the counting loop leaves, and when it stops.
* Section 2: the eviction loops are walks.
* Section 3: the outcome is that of the plan, so the order of the input does not matter.
* Section 4: no subtraction of the loops is cut off.
* Section 5: the result.

The reference simulation is the specification that the implementations are tested against, and what is shown here
is what a specification should come with: that it is total, does not depend on the order of its input, and takes no
more than it has to.
-/
import Rostra.Core.Simulation
import Rostra.Lib.Drain

namespace Rostra

open Outcome

namespace Simulation

variable [Primitives]

/-! ## 1. Counting

The first loop adds up the usage of each author and of all, and refuses an input in which an event occurs twice. -/

/-- What the first loop of the simulation has counted. -/
structure Counts (policy : RetentionPolicy) (holder : RostraId) (now : Timestamp)
    (cs : List Candidate) (s : Counted) : Prop where
  ids : s.ids = (cs.map (·.event)).toFinset
  usage : s.usage.get = Drain.Load.row Candidate.author Candidate.contentLen
    (fun _ bytes => bytes) cs
  total : s.total = (cs.map (·.contentLen)).sum
  ranked : s.ranked = (cs.filter (eligible policy now)).map fun c =>
    (keyOf policy holder c, c)

theorem countStep_counts {policy : RetentionPolicy} {holder : RostraId} {now : Timestamp}
    {cs : List Candidate} {s : Counted} (h : Counts policy holder now cs s)
    {c : Candidate} (hnew : c.event ∉ cs.map (·.event)) :
    Ensures (countStep policy holder now s c) (Counts policy holder now (cs ++ [c]))
      fun _ => False := by
  unfold countStep
  rw [if_neg (by rw [h.ids, List.mem_toFinset]; exact hnew)]
  constructor
  · show insert c.event s.ids = _
    rw [h.ids]
    ext id
    simp
  · show (s.usage.insert c.author _).get = _
    have hold : (s.usage.get c.author).getD 0 = (Drain.Load.of Candidate.author
        Candidate.contentLen cs).usage c.author := by
      rw [h.usage]
      exact Drain.Load.row_getD Candidate.author Candidate.contentLen
        (fun _ bytes => bytes) cs c.author
    rw [Table.get_insert_eq, Drain.Load.row_snoc, hold, h.usage]
  · show s.total + c.contentLen = _
    rw [h.total]
    simp
  · show (if eligible policy now c then _ else _) = _
    rw [h.ranked, List.filter_append]
    cases hc : eligible policy now c with
    | true => simp [hc]
    | false => simp [hc]

/-- The first loop, over events that occur once. -/
theorem count_counts (policy : RetentionPolicy) (holder : RostraId) (now : Timestamp)
    {cs : List Candidate} (hnodup : (cs.map (·.event)).Nodup) :
    Ensures (cs.foldlM (countStep policy holder now) {}) (Counts policy holder now cs)
      fun _ => False := by
  refine Ensures.foldlM_split (J := Counts policy holder now) cs {} ?_ ⟨rfl, rfl, rfl, rfl⟩
  intro done c rest hsplit s hs
  refine countStep_counts hs ?_
  rw [hsplit, List.map_append, List.map_cons, List.nodup_append] at hnodup
  intro hmem
  exact hnodup.2.2 _ hmem _ (List.mem_cons_self ..) rfl

theorem countStep_duplicate {policy : RetentionPolicy} {holder : RostraId} {now : Timestamp}
    (l : List Candidate) : ∀ {done : List Candidate} {s : Counted}, Counts policy holder now done s →
      (done.map (·.event)).Nodup → ¬ ((done ++ l).map (·.event)).Nodup →
      l.foldlM (countStep policy holder now) s = .error .duplicate := by
  induction l with
  | nil =>
    intro done s _ hnodup hdup
    rw [List.append_nil] at hdup
    exact absurd hnodup hdup
  | cons c l ih =>
    intro done s h hnodup hdup
    rw [List.foldlM_cons]
    by_cases hseen : c.event ∈ done.map (·.event)
    · rw [countStep, if_pos (by rw [h.ids, List.mem_toFinset]; exact hseen)]
      rfl
    · have hstep := countStep_counts h hseen
      cases hs : countStep policy holder now s c with
      | error e =>
        rw [hs] at hstep
        exact hstep.elim
      | ok s' =>
        rw [hs] at hstep
        refine ih hstep ?_ (by simpa using hdup)
        rw [List.map_append, List.map_singleton]
        exact List.Nodup.append hnodup (List.nodup_singleton _)
          (List.disjoint_singleton.mpr hseen)

/-- An event that occurs twice stops the first loop. -/
theorem count_duplicate (policy : RetentionPolicy) (holder : RostraId) (now : Timestamp)
    {cs : List Candidate} (hdup : ¬ (cs.map (·.event)).Nodup) :
    cs.foldlM (countStep policy holder now) {} = .error .duplicate :=
  @countStep_duplicate _ policy holder now cs [] _ ⟨rfl, rfl, rfl, rfl⟩ List.nodup_nil hdup

/-! ## 2. The loops are walks

The author loop looks at each candidate in turn. The global loop breaks off as soon as the load is low enough,
after which it would have taken nothing. -/

/-- Is this candidate evicted for its author? -/
def simPresses (triggered : Finset RostraId) (low : ℕ) (s : Evicting)
    (c : Candidate) : Bool :=
  decide (c.author ∈ triggered) && decide (low < (s.usage.get c.author).getD 0)

/-- Is anything evicted for all of them? -/
def simPressesAll (low : ℕ) (s : Evicting) (_ : Candidate) : Bool :=
  decide (low < s.total)

/-- The state when it was. -/
def simDrop (s : Evicting) (c : Candidate) : Evicting :=
  s.evict c ((s.usage.get c.author).getD 0)

/-- Every candidate belongs to an author that was counted. -/
def AllCounted (s : Evicting) (l : List Candidate) : Prop :=
  ∀ c ∈ l, (s.usage.get c.author).isSome

omit [Primitives] in
theorem AllCounted.drop {s : Evicting} {l : List Candidate}
    (h : AllCounted s l) (c : Candidate) : AllCounted (simDrop s c) l := by
  intro d hd
  show ((s.usage.insert c.author _).get d.author).isSome
  rw [Table.get_insert]
  split
  · rfl
  · exact h d hd

omit [Primitives] in
/-- The author loop is a walk. -/
theorem authorLoop_walk (triggered : Finset RostraId) (low : ℕ) (l : List Candidate)
    (s : Evicting) (h : AllCounted s l) :
    l.foldlM (authorStep triggered low) s =
      .ok (Drain.walk (simPresses triggered low) simDrop s l).state := by
  induction l generalizing s with
  | nil => rfl
  | cons c cs ih =>
    obtain ⟨bytes, hbytes⟩ := Option.isSome_iff_exists.mp (h c (by simp))
    have hcs : AllCounted s cs := fun d hd => h d (by simp [hd])
    have hstep : authorStep triggered low s c =
        .ok (if simPresses triggered low s c then simDrop s c else s) := by
      by_cases hc : c.author ∈ triggered ∧ low < bytes
      · simp [authorStep, simPresses, simDrop, hbytes, hc]
      · have hspared : simPresses triggered low s c = false := by
          simpa [simPresses, hbytes] using hc
        simp [authorStep, hspared, hbytes, hc]
    rw [List.foldlM_cons, hstep]
    cases hc : simPresses triggered low s c with
    | true =>
      rw [Drain.walk_cons_pressed hc]
      exact ih _ (hcs.drop c)
    | false =>
      rw [Drain.walk_cons_spared hc]
      exact ih _ hcs

omit [Primitives] in
/-- The global loop is a walk over what is not gone yet: where it breaks off, nothing is under
pressure any more. -/
theorem globalLoop_walk (low : ℕ) (l : List Candidate) (s : Evicting)
    (hnodup : (l.map (·.event)).Nodup) (h : AllCounted s l) :
    globalLoop low s l =
      .ok (Drain.walk (simPressesAll low) simDrop s
        (l.filter fun c => decide (c.event ∉ s.removed))).state := by
  induction l generalizing s with
  | nil => rfl
  | cons c cs ih =>
    obtain ⟨hc, hcs⟩ := List.nodup_cons.mp hnodup
    have hcounted : AllCounted s cs := fun d hd => h d (by simp [hd])
    unfold globalLoop
    split
    · next hdone =>
      rw [Drain.walk_of_spared fun _ _ => by simpa [simPressesAll] using hdone]
    · next hmore =>
      have hpress : simPressesAll low s c = true := by simpa [simPressesAll] using hmore
      split
      · next hgone =>
        rw [List.filter_cons, if_neg (by simpa using hgone)]
        exact ih s hcs hcounted
      · next hthere =>
        obtain ⟨bytes, hbytes⟩ := Option.isSome_iff_exists.mp (h c (by simp))
        have hdrop : simDrop s c = s.evict c bytes := by simp [simDrop, hbytes]
        -- the rest is filtered as before, since the event does not occur again
        have hfilter : (cs.filter fun d => decide (d.event ∉ (s.evict c bytes).removed)) =
            cs.filter fun d => decide (d.event ∉ s.removed) := by
          refine List.filter_congr fun d hd => ?_
          have hne : d.event ≠ c.event := fun heq => hc (List.mem_map.mpr ⟨d, hd, heq⟩)
          simp [Evicting.evict, hne]
        rw [List.filter_cons, if_pos (by simpa using hthere), Drain.walk_cons_pressed hpress, hbytes,
          hdrop, ← hfilter]
        exact ih _ hcs (hdrop ▸ hcounted.drop c)

omit [Primitives] in
/-- What is evicted is noted in its order. -/
theorem simDrop_evicted (l : List Candidate) (s : Evicting) :
    (l.foldl simDrop s).evicted = s.evicted ++ l.map (·.event) ∧
      (l.foldl simDrop s).removed = s.removed ∪ (l.map (·.event)).toFinset := by
  induction l generalizing s with
  | nil => simp
  | cons c cs ih =>
    rw [List.foldl_cons, (ih _).1, (ih _).2]
    constructor
    · simp [simDrop, Evicting.evict]
    · ext id
      simp [simDrop, Evicting.evict]

/-! ## 3. The plan

The marks are the same for every author. A budget is a pair of a high and a low mark, where the low one is not
above the high one. -/

omit [Primitives] in
/-- What each author uses, and all of them. -/
def load (cs : List Candidate) : Drain.Load RostraId := Drain.Load.of Candidate.author Candidate.contentLen cs

/-- All authors have the same budget. -/
def marks (authorBudget globalBudget : Budget) : Drain.Marks RostraId :=
  ⟨fun _ => authorBudget.high, fun _ => authorBudget.low, globalBudget.high, globalBudget.low⟩

/-- The eligible candidates in the order of their keys. -/
def rankedOf (policy : RetentionPolicy) (holder : RostraId) (now : Timestamp) (cs : List Candidate) :
    List Candidate :=
  (((cs.filter (eligible policy now)).map fun c => (keyOf policy holder c, c)).mergeSort
    fun a b => decide (a.1 ≤ b.1)).map Prod.snd

def planOf (policy : RetentionPolicy) (holder : RostraId) (now : Timestamp) (cs : List Candidate)
    (authorBudget globalBudget : Budget) : Drain.Plan Candidate RostraId :=
  Drain.plan Candidate.author Candidate.contentLen (marks authorBudget globalBudget) (load cs)
    (rankedOf policy holder now cs)

/-- The usage table against the load that is left. -/
structure Tracks (cs : List Candidate) (t : Drain.Load RostraId) (s : Evicting) : Prop where
  total : s.total = t.total
  usage : ∀ a, s.usage.get a = if a ∈ cs.map Candidate.author then some (t.usage a) else none

theorem Counts.tracks {policy : RetentionPolicy} {holder : RostraId} {now : Timestamp}
    {cs : List Candidate} {s : Counted} (h : Counts policy holder now cs s) :
    Tracks cs (load cs) ⟨s.usage, s.total, [], ∅⟩ := by
  refine ⟨h.total, fun a => ?_⟩
  show s.usage.get a = _
  rw [h.usage, Drain.Load.row]
  by_cases ha : a ∈ cs.map Candidate.author
  · rw [if_pos ha, if_pos ha]
    rfl
  · rw [if_neg ha, if_neg ha]

section Tracks

variable {cs : List Candidate} {t : Drain.Load RostraId} {s : Evicting} {c : Candidate}

omit [Primitives] in
theorem Tracks.counted (h : Tracks cs t s) (hc : c ∈ cs) :
    s.usage.get c.author = some (t.usage c.author) := by
  rw [h.usage, if_pos (List.mem_map_of_mem hc)]

omit [Primitives] in
theorem Tracks.allCounted (h : Tracks cs t s) {l : List Candidate} (hl : ∀ c ∈ l, c ∈ cs) :
    AllCounted s l := by
  intro c hc
  rw [h.counted (hl c hc)]
  rfl

omit [Primitives] in
theorem Tracks.drop (h : Tracks cs t s) (hc : c ∈ cs) :
    Tracks cs (t.drop Candidate.author Candidate.contentLen c) (simDrop s c) := by
  constructor
  · show s.total - c.contentLen = t.total - c.contentLen
    rw [h.total]
  · intro a
    show (s.usage.insert c.author ((s.usage.get c.author).getD 0 - c.contentLen)).get a = _
    simp only [h.counted hc, Table.get_insert, Drain.Load.drop, Function.update_apply]
    split
    · next ha =>
      rw [ha, if_pos (List.mem_map_of_mem hc)]
      rfl
    · exact h.usage a

omit [Primitives] in
/-- A candidate is under pressure in both or in none. -/
theorem Tracks.pressOwner (h : Tracks cs t s) (hc : c ∈ cs) {authorBudget globalBudget : Budget}
    {start : Drain.Load RostraId} {triggered : Finset RostraId}
    (htriggered : ∀ a ∈ cs.map Candidate.author,
      (a ∈ triggered ↔ authorBudget.high < start.usage a)) :
    Drain.pressOwner Candidate.author (marks authorBudget globalBudget) start t c =
      simPresses triggered authorBudget.low s c := by
  rw [Drain.pressOwner, simPresses, h.counted hc, Option.getD_some,
    decide_eq_decide.mpr (htriggered _ (List.mem_map_of_mem hc))]
  rfl

omit [Primitives] in
/-- **The author loop** evicts the first half of a plan, from the usage that was counted. -/
theorem Tracks.authorLoop {start : Drain.Load RostraId} (h : Tracks cs start s)
    (authorBudget globalBudget : Budget) {triggered : Finset RostraId}
    (htriggered : ∀ a ∈ cs.map Candidate.author,
      (a ∈ triggered ↔ authorBudget.high < start.usage a)) {l : List Candidate} (hl : ∀ c ∈ l, c ∈ cs) :
    ∃ s', l.foldlM (authorStep triggered authorBudget.low) s = .ok s' ∧
      let p := Drain.plan Candidate.author Candidate.contentLen (marks authorBudget globalBudget) start l
      s'.evicted = s.evicted ++ p.owners.map (·.event) ∧
      s'.removed = s.removed ∪ (p.owners.map (·.event)).toFinset ∧ Tracks cs p.between s' := by
  obtain ⟨hevicted, -, htracks⟩ := Drain.walk_sim (Tracks cs) id
    (Drain.pressOwner Candidate.author (marks authorBudget globalBudget) start)
    (Drain.Load.drop Candidate.author Candidate.contentLen) (simPresses triggered authorBudget.low)
    simDrop (l := l) (fun t s hts c hc => hts.pressOwner (hl c hc) htriggered)
    (fun t s hts c hc _ => hts.drop (hl c hc)) h
  rw [List.map_id, List.map_id] at hevicted
  rw [List.map_id] at htracks
  refine ⟨_, authorLoop_walk _ _ _ _ (h.allCounted hl), ?_, ?_, htracks⟩
  · rw [Drain.walk_state, (simDrop_evicted _ _).1, hevicted]
    rfl
  · rw [Drain.walk_state, (simDrop_evicted _ _).2, hevicted]
    rfl

omit [Primitives] in
/-- **The global loop** evicts the second half. Where it breaks off the total is low enough, so the walk takes
nothing after that. -/
theorem Tracks.globalLoop {start : Drain.Load RostraId} {authorBudget globalBudget : Budget}
    {l : List Candidate} (hl : ∀ c ∈ l, c ∈ cs) (hnodup : (l.map (·.event)).Nodup) :
    let p := Drain.plan Candidate.author Candidate.contentLen (marks authorBudget globalBudget) start l
    Tracks cs p.between s → s.removed = (p.owners.map (·.event)).toFinset →
    ∃ s', globalPass globalBudget s l = .ok s' ∧
      s'.evicted = s.evicted ++ p.everyone.map (·.event) ∧ Tracks cs p.rest s' := by
  intro p h hremoved
  let first := Drain.walk (Drain.pressOwner Candidate.author (marks authorBudget globalBudget) start)
    (Drain.Load.drop Candidate.author Candidate.contentLen) start l
  have hpress : ∀ t (c : Candidate), Drain.pressAll (marks authorBudget globalBudget) p.between t c =
      (decide (globalBudget.high < s.total) && decide (globalBudget.low < t.total)) := by
    intro t c
    rw [Drain.pressAll, h.total]
    rfl
  by_cases htriggered : globalBudget.high < s.total
  · have hleft : (l.filter fun c => decide (c.event ∉ s.removed)) = first.kept := by
      rw [Drain.walk_kept_eq (fun c : Candidate => c.event) hnodup]
      refine List.filter_congr fun c _ => ?_
      simp only [hremoved, List.mem_toFinset]
      exact decide_eq_decide.mpr Iff.rfl
    obtain ⟨hevicted, -, htracks⟩ := Drain.walk_sim (Tracks cs) id
      (Drain.pressAll (marks authorBudget globalBudget) p.between)
      (Drain.Load.drop Candidate.author Candidate.contentLen) (simPressesAll globalBudget.low) simDrop
      (l := first.kept) (fun t s' hts c _ => by
        rw [hpress, decide_eq_true htriggered, Bool.true_and, simPressesAll, hts.total])
      (fun t s' hts c hc _ => hts.drop (hl c (Drain.walk_kept_sublist.subset hc))) h
    rw [List.map_id, List.map_id] at hevicted
    rw [List.map_id] at htracks
    rw [globalPass, if_pos htriggered, globalLoop_walk _ _ _ hnodup (h.allCounted hl), hleft]
    refine ⟨_, rfl, ?_, htracks⟩
    rw [Drain.walk_state, (simDrop_evicted _ _).1, hevicted]
    rfl
  · have hnone : Drain.walk (Drain.pressAll (marks authorBudget globalBudget) p.between)
        (Drain.Load.drop Candidate.author Candidate.contentLen) p.between first.kept =
          ⟨p.between, [], first.kept⟩ :=
      Drain.walk_of_spared fun c _ => by rw [hpress, decide_eq_false htriggered, Bool.false_and]
    have heveryone : p.everyone = [] := congrArg Drain.Walk.evicted hnone
    have hrest : p.rest = p.between := (congrArg Drain.Walk.state hnone :)
    refine ⟨s, if_neg htriggered, ?_, ?_⟩
    · rw [heveryone]
      simp
    · rw [hrest]
      exact h

end Tracks

section Ranked

variable (policy : RetentionPolicy) (holder : RostraId) (now : Timestamp)

theorem mem_rankedOf {cs : List Candidate} {c : Candidate} :
    c ∈ rankedOf policy holder now cs ↔ c ∈ cs ∧ eligible policy now c = true := by
  simp only [rankedOf, List.mem_map, List.mem_mergeSort, List.mem_filter]
  constructor
  · rintro ⟨_, ⟨d, hd, rfl⟩, rfl⟩
    exact hd
  · exact fun hc => ⟨_, ⟨c, hc, rfl⟩, rfl⟩

theorem rankedOf_perm_filter (cs : List Candidate) :
    (rankedOf policy holder now cs).Perm (cs.filter (eligible policy now)) := by
  have h := (List.mergeSort_perm ((cs.filter (eligible policy now)).map fun c => (keyOf policy holder c, c))
    fun a b => decide (a.1 ≤ b.1)).map Prod.snd
  rw [List.map_map] at h
  simpa [rankedOf, Function.comp_def] using h

variable {policy holder now}

theorem rankedOf_nodup {cs : List Candidate} (h : (cs.map (·.event)).Nodup) :
    ((rankedOf policy holder now cs).map (·.event)).Nodup :=
  ((rankedOf_perm_filter policy holder now cs).map _).nodup_iff.mpr
    ((List.filter_sublist.map _).nodup h)

/-- A key has the id of its event. -/
theorem event_of_key {c d : Candidate} (h : keyOf policy holder c = keyOf policy holder d) :
    c.event = d.event := congrArg (fun k : RetentionKey => (ofLex k).2) h

/-- The keys ascend strictly. -/
theorem rankedOf_sorted {cs : List Candidate} (h : (cs.map (·.event)).Nodup) :
    (rankedOf policy holder now cs).Pairwise fun c d => keyOf policy holder c < keyOf policy holder d := by
  have hle : (rankedOf policy holder now cs).Pairwise fun c d =>
      keyOf policy holder c ≤ keyOf policy holder d := by
    unfold rankedOf
    rw [List.pairwise_map]
    refine (Drain.pairwise_sorted Prod.fst _).imp_of_mem fun {a b} ha hb hab => ?_
    obtain ⟨c, -, rfl⟩ := List.mem_map.mp (List.mem_mergeSort.mp ha)
    obtain ⟨d, -, rfl⟩ := List.mem_map.mp (List.mem_mergeSort.mp hb)
    exact hab
  have hne : (rankedOf policy holder now cs).Pairwise fun c d => c.event ≠ d.event :=
    List.pairwise_map.mp (rankedOf_nodup h)
  exact hle.imp₂ (fun c d hle hne => lt_of_le_of_ne hle fun heq => hne (event_of_key heq)) hne

/-- **The order of the input does not matter**, since keys of different events are different. -/
theorem rankedOf_perm {cs cs' : List Candidate} (hperm : cs.Perm cs') (h : (cs'.map (·.event)).Nodup) :
    rankedOf policy holder now cs = rankedOf policy holder now cs' := by
  have h' : (cs.map (·.event)).Nodup := ((hperm.map _).nodup_iff).mpr h
  refine List.Perm.eq_of_pairwise (fun c d _ _ hcd hdc => absurd hdc (not_lt_of_gt hcd))
    (rankedOf_sorted h') (rankedOf_sorted h) ?_
  exact ((rankedOf_perm_filter policy holder now cs).trans (hperm.filter _)).trans
    (rankedOf_perm_filter policy holder now cs').symm

end Ranked

/-- What the plan leaves behind, as an outcome. -/
def outcomeOf (policy : RetentionPolicy) (holder : RostraId) (now : Timestamp) (cs : List Candidate)
    (authorBudget globalBudget : Budget) : Outcome :=
  let p := planOf policy holder now cs authorBudget globalBudget
  { evicted := (p.owners ++ p.everyone).map (·.event)
    retainedBytes := p.rest.total
    unmetAuthors := (cs.map Candidate.author).toFinset.filter fun a =>
      authorBudget.high < (load cs).usage a ∧ authorBudget.low < p.rest.usage a
    unmetGlobal := decide (globalBudget.high < p.between.total) &&
      decide (globalBudget.low < p.rest.total) }

/-- The counting loop, as the other loops need it. -/
theorem counting (policy : RetentionPolicy) (holder : RostraId) (now : Timestamp) {cs : List Candidate}
    (hnodup : (cs.map (·.event)).Nodup) (high : ℕ) :
    ∃ counted, cs.foldlM (countStep policy holder now) {} = .ok counted ∧
      Tracks cs (load cs) ⟨counted.usage, counted.total, [], ∅⟩ ∧
      ((counted.ranked.mergeSort fun a b => decide (a.1 ≤ b.1)).map Prod.snd) =
        rankedOf policy holder now cs ∧
      ∀ a, (a ∈ counted.usage.keys.filter fun a => high < (counted.usage.get a).getD 0) ↔
        a ∈ cs.map Candidate.author ∧ high < (load cs).usage a := by
  have hcount := count_counts policy holder now hnodup
  rcases hfold : cs.foldlM (countStep policy holder now) {} with e | counted
  · exact (hcount.of_error hfold).elim
  have hcounts := hcount.of_ok hfold
  have htracks := hcounts.tracks
  refine ⟨counted, rfl, htracks, by rw [hcounts.ranked]; rfl, fun a => ?_⟩
  have husage : counted.usage.get a = if a ∈ cs.map Candidate.author then
    some ((load cs).usage a) else none := htracks.usage a
  rw [Finset.mem_filter, Table.mem_keys, husage]
  split
  · next ha => simp [ha]
  · next ha => simp [ha]

/-- **The simulation follows the plan**, if no event occurs twice. -/
theorem simulate_eq (policy : RetentionPolicy) (holder : RostraId) (now : Timestamp)
    {cs : List Candidate} (hnodup : (cs.map (·.event)).Nodup) (authorBudget globalBudget : Budget) :
    simulate policy holder now cs authorBudget globalBudget =
      .ok (outcomeOf policy holder now cs authorBudget globalBudget) := by
  obtain ⟨counted, hfold, htracks, hranked, htriggered⟩ :=
    counting policy holder now hnodup authorBudget.high
  generalize htriggeredSet : (counted.usage.keys.filter fun a =>
    authorBudget.high < (counted.usage.get a).getD 0) = triggered at htriggered
  have hl : ∀ c ∈ rankedOf policy holder now cs, c ∈ cs := fun c hc => ((mem_rankedOf _ _ _).mp hc).1
  obtain ⟨s₁, hauthor, hevicted₁, hremoved₁, htracks₁⟩ := htracks.authorLoop authorBudget globalBudget
    (fun a ha => (htriggered a).trans (and_iff_right ha)) hl
  obtain ⟨s₂, hglobal, hevicted₂, htracks₂⟩ := Tracks.globalLoop hl (rankedOf_nodup hnodup) htracks₁
    (by rw [hremoved₁, Finset.empty_union])
  have hunmet : (triggered.filter fun a => authorBudget.low < (s₂.usage.get a).getD 0) =
      (outcomeOf policy holder now cs authorBudget globalBudget).unmetAuthors := by
    ext a
    refine (Finset.mem_filter.trans (and_congr_left' (htriggered a))).trans ?_
    refine Iff.trans ?_ Finset.mem_filter.symm
    rw [List.mem_toFinset, and_assoc]
    refine and_congr_right fun ha => ?_
    rw [htracks₂.usage, if_pos ha]
    rfl
  refine bind_eq_ok.mpr ⟨counted, hfold, ?_⟩
  simp only [hranked, htriggeredSet]
  refine bind_eq_ok.mpr ⟨s₁, hauthor, bind_eq_ok.mpr ⟨s₂, hglobal, ?_⟩⟩
  have hevicted : s₂.evicted = (outcomeOf policy holder now cs authorBudget globalBudget).evicted := by
    rw [hevicted₂, hevicted₁]
    dsimp only [outcomeOf, planOf]
    rw [List.map_append, List.nil_append]
  have hglobalUnmet : (decide (globalBudget.high < s₁.total) && decide (globalBudget.low < s₂.total)) =
      (outcomeOf policy holder now cs authorBudget globalBudget).unmetGlobal := by
    rw [htracks₁.total, htracks₂.total]
    rfl
  refine congrArg Except.ok ?_
  rw [hevicted, hunmet, hglobalUnmet, htracks₂.total]
  rfl

/-! ## 4. Subtractions

The code subtracts without a check. The same loops with checked subtractions give the same result, so that no check
was needed. -/

section Checked

variable {cs : List Candidate}

omit [Primitives] in
theorem Tracks.evictChecked {t : Drain.Load RostraId} {s : Evicting} {c : Candidate} {l : List Candidate}
    (h : Tracks cs t s) (hcovers : Drain.Covers Candidate.contentLen Candidate.author t (c :: l)) :
    s.evictChecked c (t.usage c.author) = .ok (s.evict c (t.usage c.author)) := by
  obtain ⟨husage, htotal⟩ := hcovers.enough
  rw [Evicting.evictChecked, if_pos ⟨husage, by rw [h.total]; exact htotal⟩]

omit [Primitives] in
theorem authorLoopChecked_eq (triggered : Finset RostraId) (low : ℕ) (l : List Candidate) :
    ∀ {t : Drain.Load RostraId} {s : Evicting}, Tracks cs t s →
      Drain.Covers Candidate.contentLen Candidate.author t l → (∀ c ∈ l, c ∈ cs) →
      l.foldlM (authorStepChecked triggered low) s = l.foldlM (authorStep triggered low) s := by
  induction l with
  | nil => exact fun _ _ _ => rfl
  | cons c l ih =>
    intro t s h hcovers hl
    have hc := h.counted (hl c List.mem_cons_self)
    have hrest : ∀ c ∈ l, c ∈ cs := fun d hd => hl d (List.mem_cons_of_mem _ hd)
    rw [List.foldlM_cons, List.foldlM_cons, authorStepChecked, authorStep, hc]
    dsimp only
    split
    · have hdrop : s.evict c (t.usage c.author) = simDrop s c := by
        rw [simDrop, hc, Option.getD_some]
      rw [h.evictChecked hcovers, hdrop]
      exact ih (h.drop (hl c List.mem_cons_self)) hcovers.drop hrest
    · exact ih h hcovers.spare hrest

omit [Primitives] in
theorem globalLoopChecked_eq (low : ℕ) (l : List Candidate) :
    ∀ {t : Drain.Load RostraId} {s : Evicting}, Tracks cs t s → (l.map (·.event)).Nodup →
      Drain.Covers Candidate.contentLen Candidate.author t
        (l.filter fun c => decide (c.event ∉ s.removed)) → (∀ c ∈ l, c ∈ cs) →
      globalLoopChecked low s l = globalLoop low s l := by
  induction l with
  | nil => exact fun _ _ _ _ => rfl
  | cons c l ih =>
    intro t s h hnodup hcovers hl
    obtain ⟨hnew, hnodup⟩ := List.nodup_cons.mp hnodup
    have hc := h.counted (hl c List.mem_cons_self)
    have hrest : ∀ c ∈ l, c ∈ cs := fun d hd => hl d (List.mem_cons_of_mem _ hd)
    rw [globalLoopChecked, globalLoop]
    split
    · rfl
    split
    · next hgone =>
      rw [List.filter_cons, if_neg (by simpa using hgone)] at hcovers
      exact ih h hnodup hcovers hrest
    · next hthere =>
      rw [List.filter_cons, if_pos (by simpa using hthere)] at hcovers
      have hdrop : s.evict c (t.usage c.author) = simDrop s c := by
        rw [simDrop, hc, Option.getD_some]
      -- the rest is filtered as before, since the event does not occur again
      have hfilter : (l.filter fun d => decide (d.event ∉ (simDrop s c).removed)) =
          l.filter fun d => decide (d.event ∉ s.removed) := by
        refine List.filter_congr fun d hd => ?_
        have hne : d.event ≠ c.event := fun heq => hnew (List.mem_map.mpr ⟨d, hd, heq⟩)
        simp [simDrop, Evicting.evict, hne]
      rw [hc]
      dsimp only
      rw [h.evictChecked hcovers, hdrop]
      refine ih (h.drop (hl c List.mem_cons_self)) hnodup ?_ hrest
      rw [hfilter]
      exact hcovers.drop

/-- **No subtraction is cut off**: the version with checks does the same. -/
theorem simulateChecked_eq (policy : RetentionPolicy) (holder : RostraId) (now : Timestamp)
    (cs : List Candidate) (authorBudget globalBudget : Budget) :
    simulateChecked policy holder now cs authorBudget globalBudget =
      simulate policy holder now cs authorBudget globalBudget := by
  by_cases hnodup : (cs.map (·.event)).Nodup
  · obtain ⟨counted, hfold, htracks, hranked, htriggered⟩ :=
      counting policy holder now hnodup authorBudget.high
    have hl : ∀ c ∈ rankedOf policy holder now cs, c ∈ cs := fun c hc => ((mem_rankedOf _ _ _).mp hc).1
    have hcovers : Drain.Covers Candidate.contentLen Candidate.author (load cs)
        (rankedOf policy holder now cs) :=
      (Drain.covers_of_sublist List.filter_sublist).perm (rankedOf_perm_filter policy holder now cs).symm
    obtain ⟨s₁, hauthor, -, hremoved₁, htracks₁⟩ := htracks.authorLoop authorBudget globalBudget
      (fun a ha => (htriggered a).trans (and_iff_right ha)) hl
    have hauthor' := (authorLoopChecked_eq _ authorBudget.low _ htracks hcovers hl).trans hauthor
    have hkept : Drain.Covers Candidate.contentLen Candidate.author
        (planOf policy holder now cs authorBudget globalBudget).between
        ((rankedOf policy holder now cs).filter fun c => decide (c.event ∉ s₁.removed)) := by
      have hwalk : Drain.Covers Candidate.contentLen Candidate.author
          (Drain.walk (Drain.pressOwner Candidate.author (marks authorBudget globalBudget) (load cs))
            (Drain.Load.drop Candidate.author Candidate.contentLen) (load cs)
            (rankedOf policy holder now cs)).state _ := Drain.Covers.walk [] hcovers
      rw [List.nil_append, Drain.walk_kept_eq (fun c : Candidate => c.event) (rankedOf_nodup hnodup)]
        at hwalk
      refine (congrArg (Drain.Covers _ _ _) (List.filter_congr fun c _ => ?_)).mp hwalk
      rw [hremoved₁, Finset.empty_union]
      simp only [List.mem_toFinset]
      exact decide_eq_decide.mpr Iff.rfl
    have hglobal := globalLoopChecked_eq globalBudget.low _ htracks₁ (rankedOf_nodup hnodup) hkept hl
    unfold simulateChecked simulate globalPass
    simp only [bind, Except.bind, hfold, hranked, hauthor, hauthor', hglobal]
    split
    · rfl
    · rfl
  · unfold simulateChecked simulate
    rw [count_duplicate policy holder now hnodup]
    rfl

end Checked

/-! ## 5. The result

Minimality is about front parts of the ranked list: of all of them that are enough, the shortest is taken. -/

/-- The candidates whose events are not among some others. -/
def without (cs dropped : List Candidate) : List Candidate :=
  cs.filter fun c => decide (c.event ∉ dropped.map (·.event))

/-- **What the simulation is for.**  From the candidates in the order of their keys, `first` goes for the
sake of authors and `second` for the sake of everyone. -/
structure Minimal (policy : RetentionPolicy) (now : Timestamp) (cs : List Candidate)
    (authorBudget globalBudget : Budget) (ranked first second : List Candidate) (outcome : Outcome) :
    Prop where
  evicted : outcome.evicted = (first ++ second).map (·.event)
  inOrder : first.Sublist ranked
  authors : ∀ a, if authorBudget.high < (load cs).usage a then
      Drain.Shortest Candidate.contentLen ((load cs).usage a) authorBudget.low
        (ranked.filter fun c => c.author = a) (first.filter fun c => c.author = a)
    else first.filter (fun c => c.author = a) = []
  everyone : if globalBudget.high < (load (without cs first)).total then
      Drain.Shortest Candidate.contentLen (load (without cs first)).total globalBudget.low
        (without ranked first) second
    else second = []
  spared : ∀ c ∈ first ++ second, c ∈ cs ∧ c.isProtected = false ∧ c.contentLen ≠ 0 ∧
    policy.graceElapsed c.firstMaterialized now = true
  retained : outcome.retainedBytes = (load (without cs (first ++ second))).total
  unmetAuthors : ∀ a, a ∈ outcome.unmetAuthors ↔ authorBudget.high < (load cs).usage a ∧
    authorBudget.low < (load (without cs (first ++ second))).usage a
  unmetGlobal : outcome.unmetGlobal = true ↔ globalBudget.high < (load (without cs first)).total ∧
    globalBudget.low < (load (without cs (first ++ second))).total

omit [Primitives] in
/-- What is dropped from all candidates leaves the load of the others. -/
theorem load_without {cs dropped : List Candidate} (hnodup : (cs.map (·.event)).Nodup)
    (hdropped : dropped.Subperm cs) :
    dropped.foldl (Drain.Load.drop Candidate.author Candidate.contentLen) (load cs) =
      load (without cs dropped) := by
  obtain ⟨dropped', hsame, hsub⟩ := hdropped
  obtain ⟨left, hsplit⟩ := hsub.exists_perm_append
  have hperm : cs.Perm (dropped ++ left) := hsplit.trans (hsame.append_right left)
  have hevents : ((dropped ++ left).map (·.event)).Nodup := ((hperm.map _).nodup_iff).mp hnodup
  have hleft : (without cs dropped).Perm left := by
    refine (hperm.filter _).trans ?_
    rw [List.map_append, List.nodup_append] at hevents
    have hnone : dropped.filter (fun c => decide (c.event ∉ dropped.map (·.event))) = [] :=
      List.filter_eq_nil_iff.mpr fun c hc => by simpa using ⟨c, hc, rfl⟩
    have hall : left.filter (fun c => decide (c.event ∉ dropped.map (·.event))) = left :=
      List.filter_eq_self.mpr fun c hc => decide_eq_true fun hmem =>
        hevents.2.2 _ hmem _ (List.mem_map_of_mem hc) rfl
    rw [List.filter_append, hnone, hall, List.nil_append]
  unfold load
  rw [Drain.Load.of_perm _ _ hperm, Drain.foldl_drop, Drain.Load.of_perm _ _ hleft]

/-- **The plan is minimal**: for each owner above its mark the shortest front part that is enough, and then for
everyone. -/
theorem outcomeOf_minimal (policy : RetentionPolicy) (holder : RostraId) (now : Timestamp)
    {cs : List Candidate} (hnodup : (cs.map (·.event)).Nodup) (authorBudget globalBudget : Budget) :
    Minimal policy now cs authorBudget globalBudget (rankedOf policy holder now cs)
      (planOf policy holder now cs authorBudget globalBudget).owners
      (planOf policy holder now cs authorBudget globalBudget).everyone
      (outcomeOf policy holder now cs authorBudget globalBudget) := by
  generalize hp : planOf policy holder now cs authorBudget globalBudget = p
  let first := Drain.walk (Drain.pressOwner Candidate.author (marks authorBudget globalBudget) (load cs))
    (Drain.Load.drop Candidate.author Candidate.contentLen) (load cs) (rankedOf policy holder now cs)
  have howners : p.owners = first.evicted := by rw [← hp]; rfl
  have hkept : first.kept = without (rankedOf policy holder now cs) p.owners := by
    rw [howners]
    exact (Drain.walk_kept_eq (fun c : Candidate => c.event) (rankedOf_nodup hnodup)).trans
      (List.filter_congr fun c _ => decide_eq_decide.mpr Iff.rfl)
  have hranked : (rankedOf policy holder now cs).Subperm cs :=
    ⟨_, (rankedOf_perm_filter policy holder now cs).symm, List.filter_sublist⟩
  have hsublist : p.owners.Sublist (rankedOf policy holder now cs) := by
    rw [howners]
    exact Drain.walk_evicted_sublist
  have hbetween : p.between = load (without cs p.owners) := by
    rw [← load_without hnodup (hsublist.subperm.trans hranked), howners, ← Drain.walk_state, ← hp]
    rfl
  have heveryone : p.everyone = (Drain.walk (Drain.pressAll (marks authorBudget globalBudget) p.between)
      (Drain.Load.drop Candidate.author Candidate.contentLen) p.between first.kept).evicted := by
    rw [← hp]
    rfl
  have hboth : (p.owners ++ p.everyone).Subperm (rankedOf policy holder now cs) := by
    refine @List.Subperm.trans _ _ (first.evicted ++ first.kept) _ ?_ Drain.walk_perm.subperm
    rw [howners, heveryone]
    exact ((List.Sublist.refl _).append Drain.walk_evicted_sublist).subperm
  have hrest : p.rest = load (without cs (p.owners ++ p.everyone)) := by
    rw [← load_without hnodup (hboth.trans hranked), List.foldl_append,
      load_without hnodup (hsublist.subperm.trans hranked), ← hbetween, heveryone, ← Drain.walk_state,
      ← hp]
    rfl
  refine ⟨by rw [← hp]; rfl, hsublist, fun a => ?_, ?_, fun c hc => ?_, ?_, fun a => ?_, ?_⟩
  · have hfilter : first.evicted.filter (fun c => decide (c.author = a)) = _ :=
      Drain.evicted_of_owner Candidate.contentLen Candidate.author (marks authorBudget globalBudget)
        (load cs) a (rankedOf policy holder now cs) (load cs)
    rw [howners, hfilter]
    split
    · next hhigh =>
      rw [if_pos (show (marks authorBudget globalBudget).high a < _ from hhigh)]
      exact Drain.shortest_walkDown _ _ _ _
    · next hlow => exact if_neg hlow
  · rw [heveryone, Drain.evicted_of_all, hbetween, hkept]
    split
    · next hhigh =>
      rw [if_pos (show (marks authorBudget globalBudget).globalHigh < _ from hhigh)]
      exact Drain.shortest_walkDown _ _ _ _
    · next hlow => exact if_neg hlow
  · obtain ⟨hin, heligible⟩ := (mem_rankedOf policy holder now).mp (hboth.subset hc)
    simp only [eligible, Bool.and_eq_true, Bool.not_eq_true', decide_eq_true_eq] at heligible
    exact ⟨hin, heligible.1.1, heligible.1.2, heligible.2⟩
  · rw [← hrest, ← hp]
    rfl
  · rw [← hrest, ← hp]
    refine Finset.mem_filter.trans ?_
    rw [List.mem_toFinset]
    refine and_iff_right_of_imp fun hhigh => ?_
    by_contra hout
    have hzero : (load cs).usage a = 0 := Drain.Load.of_absent _ _ hout
    rw [hzero] at hhigh
    exact absurd hhigh.1 (Nat.not_lt_zero _)
  · rw [← hrest, ← hbetween, ← hp]
    show (decide _ && decide _) = true ↔ _
    rw [Bool.and_eq_true, decide_eq_true_eq, decide_eq_true_eq]

/-- **Simulation is minimal and order independent.**  It fails exactly when an event occurs twice, without an
underflow (`simulateChecked`) or a panic; its result is the same for every permutation of the candidates; and
it is what `Minimal` says: each author above its high mark loses the shortest front part of its eligible
candidates that is enough, and then everyone does. -/
theorem simulate_minimal (policy : RetentionPolicy) (holder : RostraId) (now : Timestamp)
    (cs : List Candidate) (authorBudget globalBudget : Budget) :
    simulateChecked policy holder now cs authorBudget globalBudget =
        simulate policy holder now cs authorBudget globalBudget ∧
      (∀ cs', cs'.Perm cs → simulate policy holder now cs' authorBudget globalBudget =
        simulate policy holder now cs authorBudget globalBudget) ∧
      match simulate policy holder now cs authorBudget globalBudget with
      | .error e => e = .duplicate ∧ ¬ (cs.map (·.event)).Nodup
      | .ok outcome => (cs.map (·.event)).Nodup ∧ ∃ ranked first second,
          ranked.Pairwise (fun c d => keyOf policy holder c < keyOf policy holder d) ∧
          (∀ c, c ∈ ranked ↔ c ∈ cs ∧ eligible policy now c = true) ∧
          Minimal policy now cs authorBudget globalBudget ranked first second outcome := by
  refine ⟨simulateChecked_eq policy holder now cs authorBudget globalBudget, fun cs' hperm => ?_, ?_⟩
  · by_cases hnodup : (cs.map (·.event)).Nodup
    · have hnodup' : (cs'.map (·.event)).Nodup := ((hperm.map _).nodup_iff).mpr hnodup
      rw [simulate_eq policy holder now hnodup', simulate_eq policy holder now hnodup]
      have hload : load cs' = load cs := Drain.Load.of_perm _ _ hperm
      have hauthors : (cs'.map Candidate.author).toFinset = (cs.map Candidate.author).toFinset :=
        List.toFinset_eq_of_perm _ _ (hperm.map _)
      unfold outcomeOf planOf
      rw [rankedOf_perm hperm hnodup, hload, hauthors]
    · have hdup' : ¬ (cs'.map (·.event)).Nodup := fun h => hnodup (((hperm.map _).nodup_iff).mp h)
      unfold simulate
      rw [count_duplicate policy holder now hnodup, count_duplicate policy holder now hdup']
  · by_cases hnodup : (cs.map (·.event)).Nodup
    · rw [simulate_eq policy holder now hnodup]
      exact ⟨hnodup, _, _, _, rankedOf_sorted hnodup, fun c => mem_rankedOf policy holder now,
        outcomeOf_minimal policy holder now hnodup authorBudget globalBudget⟩
    · have herror : simulate policy holder now cs authorBudget globalBudget = .error .duplicate := by
        unfold simulate
        rw [count_duplicate policy holder now hnodup]
        rfl
      rw [herror]
      exact ⟨rfl, hnodup⟩

end Simulation

end Rostra
