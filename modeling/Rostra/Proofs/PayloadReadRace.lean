/-
# The payload read race tries every peer

The law of a race relates its state to what it has shown: the iterator stands behind the peers whose
reads were started, and every read that was started is active or has completed.  The phase says the
rest: why the race is suspended, or why it returned.

Capacity decides when a peer is tried and never whether: a refusal leaves the peer at the head of the
iterator, and the race gives up only when none of its own reads holds capacity.

Nothing is assumed about the order in which reads complete, nor about the callback but that it answers. The result
has a safety part (who was tried, in which order, how many at a time, and what is returned) and a part that a race
which does nothing would not have: it can always take a step, it takes boundedly many, and when it stops it has a
winner or has tried everybody. A capacity that is refused for ever ends a race only while none of its own reads
holds any.
-/
import Mathlib.Data.List.Nodup
import Mathlib.Data.List.Range
import Rostra.Client.PayloadReadRace

namespace Rostra.PayloadReadRace

variable {P G T E : Type}

/-! ## 1. What a trace shows

Starts, completions and refusals, in the order in which they were shown. -/

section Trace

variable (trace : List (Label P G T E))

@[simp] theorem starts_append (shown : List (Label P G T E)) :
    starts (trace ++ shown) = starts trace ++ starts shown := List.filterMap_append

@[simp] theorem completions_append (shown : List (Label P G T E)) :
    completions (trace ++ shown) = completions trace ++ completions shown := List.filterMap_append

@[simp] theorem refusals_append (shown : List (Label P G T E)) :
    refusals (trace ++ shown) = refusals trace ++ refusals shown := List.filterMap_append

@[simp] theorem starts_started (a : Attempt P G) :
    starts [(.started a : Label P G T E)] = [a] := rfl

@[simp] theorem starts_refused (e : E) : starts [(.refused e : Label P G T E)] = [] := rfl

@[simp] theorem starts_completed (a : Attempt P G) (output : Option T) :
    starts [(.completed a output : Label P G T E)] = [] := rfl

@[simp] theorem completions_started (a : Attempt P G) :
    completions [(.started a : Label P G T E)] = [] := rfl

@[simp] theorem completions_refused (e : E) : completions [(.refused e : Label P G T E)] = [] := rfl

@[simp] theorem completions_completed (a : Attempt P G) (output : Option T) :
    completions [(.completed a output : Label P G T E)] = [(a, output)] := rfl

@[simp] theorem refusals_started (a : Attempt P G) :
    refusals [(.started a : Label P G T E)] = [] := rfl

@[simp] theorem refusals_refused (e : E) : refusals [(.refused e : Label P G T E)] = [e] := rfl

@[simp] theorem refusals_completed (a : Attempt P G) (output : Option T) :
    refusals [(.completed a output : Label P G T E)] = [] := rfl

/-- Every label is one of the three. -/
theorem length_eq : ∀ trace : List (Label P G T E),
    trace.length = (starts trace).length + (completions trace).length + (refusals trace).length
  | [] => rfl
  | x :: trace => by
    have ih := length_eq trace
    have happend := starts_append [x] trace
    have happend' := completions_append [x] trace
    have happend'' := refusals_append [x] trace
    rw [List.singleton_append] at happend happend' happend''
    rw [happend, happend', happend'']
    cases x with
    | started a => simp; omega
    | refused e => simp; omega
    | completed a output => simp; omega

end Trace

/-! ## 2. The law of a race

The law has a part for every phase. `Books` is what all of them share. -/

/-- No read has succeeded: those started are active or have failed. -/
structure Underway (s : Race P G T E) (trace : List (Label P G T E)) : Prop where
  accounted : (starts trace).Perm (s.active ++ (completions trace).map Prod.fst)
  failed : ∀ c ∈ completions trace, c.2 = none

/-- What the phase of a race says. -/
def PhaseLaw (s : Race P G T E) (trace : List (Label P G T E)) : Prop :=
  match s.phase with
  | .reserving => Underway s trace ∧ s.active.length < 4 ∧ s.pending ≠ [] ∧
      (refusals trace).length ≤ (completions trace).length
  | .waiting => Underway s trace ∧ s.active ≠ []
  | .returned (.ok none) => Underway s trace ∧ s.active = [] ∧ s.pending = []
  | .returned (.ok (some winner)) => s.active = [] ∧
      ∃ before a, completions trace = before ++ [(a, some winner)] ∧ ∀ c ∈ before, c.2 = none
  | .returned (.error reason) => Underway s trace ∧ s.active = [] ∧ s.pending ≠ [] ∧
      trace.getLast? = some (.refused reason)

/-- **The law of a race.** -/
structure Law (peers : List P) (s : Race P G T E) (trace : List (Label P G T E)) : Prop where
  pending : s.pending = peers.drop s.consumed
  consumed : s.consumed ≤ peers.length
  /-- One read for each list position, in the order of the list. -/
  started : (starts trace).map (fun a => (a.peer, a.position)) = peers.zipIdx.take s.consumed
  active : s.active.length ≤ 4
  completed : (completions trace).length ≤ s.consumed
  /-- Between two refusals a read completes. -/
  refused : (refusals trace).length ≤ (completions trace).length + 1
  phase : PhaseLaw s trace

/-- The part of the law that does not look at the phase. -/
structure Books (peers : List P) (s : Race P G T E) (trace : List (Label P G T E)) : Prop where
  pending : s.pending = peers.drop s.consumed
  consumed : s.consumed ≤ peers.length
  started : (starts trace).map (fun a => (a.peer, a.position)) = peers.zipIdx.take s.consumed
  active : s.active.length ≤ 4
  underway : Underway s trace

section Steps

variable {peers : List P} {s : Race P G T E} {trace : List (Label P G T E)}

theorem Books.completed (h : Books peers s trace) : (completions trace).length ≤ s.consumed := by
  have hlength := congrArg List.length h.started
  rw [List.length_map, List.length_take] at hlength
  have hperm := h.underway.accounted.length_eq
  rw [List.length_append, List.length_map] at hperm
  omega

theorem Books.wait (h : Books peers s trace) (hidle : s.active = [] → s.pending = [])
    (hrefused : (refusals trace).length ≤ (completions trace).length + 1) :
    Law peers s.wait trace := by
  refine ⟨h.pending, h.consumed, h.started, h.active, h.completed, hrefused, ?_⟩
  unfold Race.wait PhaseLaw
  by_cases hactive : s.active = []
  · simp only [hactive, if_true]
    exact ⟨⟨by rw [← hactive]; exact h.underway.accounted, h.underway.failed⟩, trivial, hidle hactive⟩
  · simp only [hactive, if_false]
    exact ⟨⟨h.underway.accounted, h.underway.failed⟩, hactive⟩

theorem Books.fill (h : Books peers s trace)
    (hrefused : (refusals trace).length ≤ (completions trace).length) : Law peers s.fill trace := by
  unfold Race.fill
  split
  · next hroom =>
    refine ⟨h.pending, h.consumed, h.started, h.active, h.completed, Nat.le_succ_of_le hrefused, ?_⟩
    exact ⟨⟨h.underway.accounted, h.underway.failed⟩, hroom.1, hroom.2, hrefused⟩
  · next hfull =>
    refine h.wait (fun hactive => ?_) (Nat.le_succ_of_le hrefused)
    by_contra hpending
    exact hfull ⟨by rw [hactive]; exact Nat.zero_lt_succ 3, hpending⟩

theorem start_law (peers : List P) : Law peers (Race.start peers : Race P G T E) [] := by
  refine Books.fill ⟨rfl, Nat.zero_le _, rfl, Nat.zero_le _, ?_⟩ le_rfl
  exact ⟨.refl _, by simp [completions]⟩

/-- Taking out the one read at a position. -/
theorem perm_cons_filter {a : Attempt P G} : ∀ {reads : List (Attempt P G)},
    (reads.map Attempt.position).Nodup → a ∈ reads →
      reads.Perm (a :: reads.filter fun b => b.position ≠ a.position)
  | [], _, ha => absurd ha List.not_mem_nil
  | b :: reads, hnodup, ha => by
    rw [List.map_cons, List.nodup_cons] at hnodup
    by_cases hb : b.position = a.position
    · have hrest : reads.filter (fun c => c.position ≠ a.position) = reads := by
        refine List.filter_eq_self.mpr fun c hc => ?_
        rw [← hb, decide_eq_true_eq]
        rintro heq
        exact hnodup.1 (List.mem_map.mpr ⟨c, hc, heq⟩)
      have hab : a = b := by
        rcases List.mem_cons.mp ha with hab | ha
        · exact hab
        · exact absurd (List.mem_map.mpr ⟨a, ha, hb.symm⟩) hnodup.1
      rw [List.filter_cons_of_neg (by simpa using hb), hrest, hab]
    · have ha' : a ∈ reads := by
        rcases List.mem_cons.mp ha with rfl | ha
        · exact absurd rfl hb
        · exact ha
      rw [List.filter_cons_of_pos (by simpa using hb)]
      exact ((perm_cons_filter hnodup.2 ha').cons b).trans (.swap a b _)

/-- No two active reads are at one position. -/
theorem Books.nodup (h : Books peers s trace) : (s.active.map Attempt.position).Nodup := by
  have hstarts : ((starts trace).map Attempt.position).Nodup := by
    have hmap := congrArg (List.map Prod.snd) h.started
    rw [List.map_map, List.map_take, List.zipIdx_map_snd] at hmap
    have heq : (starts trace).map Attempt.position =
        (List.range' 0 peers.length).take s.consumed := hmap
    rw [heq]
    exact (List.take_sublist _ _).nodup List.nodup_range'
  have hperm := (h.underway.accounted.map Attempt.position).nodup_iff.mp hstarts
  rw [List.map_append] at hperm
  exact (List.nodup_append.mp hperm).1

theorem Books.length_eq (h : Books peers s trace) :
    s.active.length + (completions trace).length = s.consumed := by
  have hlength := congrArg List.length h.started
  rw [List.length_map, List.length_take, List.length_zipIdx, Nat.min_eq_left h.consumed] at hlength
  have hperm := h.underway.accounted.length_eq
  rw [List.length_append, List.length_map] at hperm
  omega

/-- A granted guard starts the read of the peer at the head of the iterator. -/
theorem Books.grant (h : Books peers s trace) {peer : P} {rest : List P}
    (hpending : s.pending = peer :: rest) (hroom : s.active.length < 4) (guard : G) :
    Books peers { s with
        pending := rest
        consumed := s.consumed + 1
        active := s.active ++ [⟨s.consumed, peer, guard⟩] }
      (trace ++ [.started ⟨s.consumed, peer, guard⟩]) := by
  have hdrop : peers.drop s.consumed = peer :: rest := h.pending.symm.trans hpending
  have hhead : peers[s.consumed]? = some peer := by
    rw [← Nat.add_zero s.consumed, ← List.getElem?_drop, hdrop]
    rfl
  refine ⟨?_, ?_, ?_, ?_, ⟨?_, ?_⟩⟩
  · rw [← List.tail_drop, hdrop]
    rfl
  · exact Nat.succ_le_of_lt (List.getElem?_eq_some_iff.mp hhead).1
  · rw [starts_append, starts_started, List.map_append, h.started, List.take_add_one,
      List.getElem?_zipIdx, hhead]
    simp
  · rw [List.length_append]
    exact hroom
  · rw [starts_append, completions_append, starts_started, completions_started, List.append_nil]
    refine (h.underway.accounted.append_right _).trans ?_
    rw [List.append_assoc, List.append_assoc]
    exact List.perm_append_comm.append_left s.active
  · rw [completions_append, completions_started, List.append_nil]
    exact h.underway.failed

/-- A failed read leaves the race. -/
theorem Books.fail (h : Books peers s trace) {a : Attempt P G} (ha : a ∈ s.active) :
    Books peers { s with active := s.active.filter fun b => b.position ≠ a.position }
      (trace ++ [.completed a none]) := by
  have hperm := perm_cons_filter h.nodup ha
  refine ⟨h.pending, h.consumed, ?_, (List.length_filter_le _ _).trans h.active, ⟨?_, ?_⟩⟩
  · rw [starts_append, starts_completed, List.append_nil]
    exact h.started
  · rw [starts_append, completions_append, starts_completed, completions_completed, List.append_nil,
      List.map_append]
    refine h.underway.accounted.trans ((hperm.append_right _).trans ?_)
    rw [List.cons_append, ← List.append_assoc]
    exact (List.perm_append_singleton _ _).symm
  · rw [completions_append, completions_completed]
    intro c hc
    rcases List.mem_append.mp hc with hc | hc
    · exact h.underway.failed c hc
    · obtain rfl := List.mem_singleton.mp hc
      rfl

/-- The law of a running race gives its books. -/
theorem Law.books (h : Law peers s trace) (hu : Underway s trace) : Books peers s trace :=
  ⟨h.pending, h.consumed, h.started, h.active, hu⟩

/-- **The step lemma.** -/
theorem Law.step (h : Law peers s trace) {act : Act G T E} {s' : Race P G T E}
    {shown : List (Label P G T E)} (hstep : step s act = some (s', shown)) :
    Law peers s' (trace ++ shown) := by
  have hphase := h.phase
  unfold PhaseLaw at hphase
  cases act with
  | reserve answer =>
    simp only [PayloadReadRace.step] at hstep
    split at hstep
    · next peer rest hp hpending =>
      rw [hp] at hphase
      obtain ⟨hu, hroom, hne, hrefused⟩ := hphase
      cases answer with
      | ok guard =>
        cases hstep
        refine Books.fill ((h.books hu).grant hpending hroom guard) ?_
        rw [refusals_append, completions_append, refusals_started, completions_started,
          List.append_nil, List.append_nil]
        exact hrefused
      | error reason =>
        cases hstep
        have hu' : Underway s (trace ++ [.refused reason]) := by
          refine ⟨?_, ?_⟩
          · rw [starts_append, completions_append, starts_refused, completions_refused,
              List.append_nil, List.append_nil]
            exact hu.accounted
          · rw [completions_append, completions_refused, List.append_nil]
            exact hu.failed
        have hbooks : Books peers s (trace ++ [.refused reason]) := by
          refine ⟨h.pending, h.consumed, ?_, h.active, hu'⟩
          rw [starts_append, starts_refused, List.append_nil]
          exact h.started
        have hcount : (refusals (trace ++ [.refused reason])).length ≤
            (completions (trace ++ [.refused reason])).length + 1 := by
          rw [refusals_append, completions_append, refusals_refused, completions_refused,
            List.append_nil, List.length_append]
          exact Nat.succ_le_succ hrefused
        split
        · next hidle =>
          refine ⟨h.pending, h.consumed, hbooks.started, h.active, hbooks.completed, hcount, ?_⟩
          exact ⟨⟨hu'.accounted, hu'.failed⟩, hidle, hne, by simp⟩
        · next hactive => exact hbooks.wait (fun hidle => absurd hidle hactive) hcount
    · cases hstep
  | complete position output =>
    simp only [PayloadReadRace.step] at hstep
    split at hstep
    · next a hp hfind =>
      rw [hp] at hphase
      obtain ⟨hu, hactive⟩ := hphase
      have hbooks := h.books hu
      have ha := List.mem_of_find?_eq_some hfind
      obtain rfl : a.position = position := by simpa using List.find?_some hfind
      have hpos : 0 < s.active.length := List.length_pos_of_mem ha
      have hlength := hbooks.length_eq
      have hrefused := h.refused
      cases output with
      | some winner =>
        cases hstep
        refine ⟨h.pending, h.consumed, ?_, Nat.zero_le _, ?_, ?_, ?_⟩
        · rw [starts_append, starts_completed, List.append_nil]
          exact h.started
        · rw [completions_append, completions_completed, List.length_append]
          dsimp only [List.length_singleton]
          omega
        · rw [refusals_append, completions_append, refusals_completed, completions_completed,
            List.append_nil, List.length_append]
          omega
        · exact ⟨rfl, completions trace, a, by rw [completions_append, completions_completed],
            hu.failed⟩
      | none =>
        cases hstep
        refine (hbooks.fail ha).fill ?_
        rw [refusals_append, completions_append, refusals_completed, completions_completed,
          List.append_nil, List.length_append]
        exact hrefused
    · cases hstep

/-! ## 3. Every race

Safety from the law, and then the two statements that safety does not give: that something can always be done, and
that it is done after so many steps at most. -/

theorem racePayloadReads_law (peers : List P) (acts : List (Act G T E)) :
    Law peers (racePayloadReads peers acts).1 (racePayloadReads peers acts).2 :=
  Machine.run_invariant (J := Law peers) (start_law peers) acts
    fun _ _ _ _ _ _ hlaw hstep => hlaw.step hstep

/-- What an answer of the callback shows: the read of the next peer, or the refusal. -/
def shownAnswer (position : ℕ) (peer : P) : Except E G → Label P G T E
  | .ok guard => .started ⟨position, peer, guard⟩
  | .error reason => .refused reason

/-- An active read is the one found at its position. -/
theorem Books.find_active (h : Books peers s trace) {a : Attempt P G} (ha : a ∈ s.active) :
    (s.active.find? fun b => b.position = a.position) = some a := by
  cases hfind : s.active.find? fun b => b.position = a.position with
  | none => exact absurd (by simp) (List.find?_eq_none.mp hfind a ha)
  | some b =>
    have hb : b ∈ s.active := List.mem_of_find?_eq_some hfind
    have hsame : b.position = a.position := by simpa using List.find?_some hfind
    rw [List.inj_on_of_nodup_map h.nodup hb ha hsame]

/-- **A race is never stuck, and every step shows what was done**: while it has not returned, either
the callback is asked about the next peer, and each of its answers is a step that starts the read of
that peer or shows the refusal; or reads are active, and each completion of each of them is a step. -/
theorem Law.enabled (h : Law peers s trace) (hrunning : ∀ result, s.phase ≠ .returned result) :
    (∃ peer, peers[s.consumed]? = some peer ∧ ∀ answer : Except E G, ∃ s',
        PayloadReadRace.step s (.reserve answer) = some (s', [shownAnswer s.consumed peer answer])) ∨
      (s.active ≠ [] ∧ ∀ a ∈ s.active, ∀ output : Option T, ∃ s',
        PayloadReadRace.step s (.complete a.position output) = some (s', [.completed a output])) := by
  have hphase := h.phase
  unfold PhaseLaw at hphase
  cases hp : s.phase with
  | reserving =>
    rw [hp] at hphase
    obtain ⟨-, -, hne, -⟩ := hphase
    obtain ⟨peer, rest, hpending⟩ := List.exists_cons_of_ne_nil hne
    refine .inl ⟨peer, ?_, fun answer => ?_⟩
    · rw [← Nat.add_zero s.consumed, ← List.getElem?_drop, ← h.pending, hpending]
      rfl
    · simp only [PayloadReadRace.step, hp, hpending]
      cases answer with
      | ok guard => exact ⟨_, rfl⟩
      | error reason => exact ⟨_, rfl⟩
  | waiting =>
    rw [hp] at hphase
    refine .inr ⟨hphase.2, fun a ha output => ?_⟩
    simp only [PayloadReadRace.step, hp, (h.books hphase.1).find_active ha]
    cases output with
    | none => exact ⟨_, rfl⟩
    | some winner => exact ⟨_, rfl⟩
  | returned result => exact absurd hp (hrunning result)

/-- **A race ends**: it takes three steps for each peer and one more at most. -/
theorem Law.bounded (h : Law peers s trace) : trace.length ≤ 3 * peers.length + 1 := by
  have hlength := congrArg List.length h.started
  rw [List.length_map, List.length_take, List.length_zipIdx, Nat.min_eq_left h.consumed] at hlength
  have hcompleted := h.completed
  have hrefused := h.refused
  have hconsumed := h.consumed
  rw [length_eq trace]
  omega

/-- While no read has succeeded, there is no first success. -/
theorem Underway.no_winner (h : Underway s trace) :
    (completions trace).find? (fun c => c.2.isSome) = none :=
  List.find?_eq_none.mpr fun c hc => by simp [h.failed c hc]

/-- The first success is what a race returns, and nothing else is. -/
theorem Law.winner_iff (h : Law peers s trace) (winner : T) :
    s.phase = .returned (.ok (some winner)) ↔
      ∃ a, (completions trace).find? (fun c => c.2.isSome) = some (a, some winner) := by
  have hphase := h.phase
  unfold PhaseLaw at hphase
  have hnone : Underway s trace → ¬∃ a, (completions trace).find? (fun c => c.2.isSome) =
      some (a, some winner) := by
    rintro hu ⟨a, ha⟩
    rw [hu.no_winner] at ha
    cases ha
  split at hphase
  · next hp => exact ⟨fun hr => (by rw [hp] at hr; cases hr), fun ha => absurd ha (hnone hphase.1)⟩
  · next hp => exact ⟨fun hr => (by rw [hp] at hr; cases hr), fun ha => absurd ha (hnone hphase.1)⟩
  · next hp => exact ⟨fun hr => (by rw [hp] at hr; cases hr), fun ha => absurd ha (hnone hphase.1)⟩
  · next w hp =>
    obtain ⟨-, before, a, hlist, hfailed⟩ := hphase
    have hfind : (completions trace).find? (fun c => c.2.isSome) = some (a, some w) := by
      rw [hlist, List.find?_append, List.find?_eq_none.mpr fun c hc => by simp [hfailed c hc]]
      simp
    rw [hp, hfind]
    constructor
    · intro hr
      cases hr
      exact ⟨a, rfl⟩
    · rintro ⟨a', ha'⟩
      cases ha'
      rfl
  · next hp => exact ⟨fun hr => (by rw [hp] at hr; cases hr), fun ha => absurd ha (hnone hphase.1)⟩

/-- **The race tries every peer.**  Whatever the callback answers and in whatever order the reads
complete: the reads started are those of the first peers, one for each list position and in the order of
the list, with all other peers still to come; at most four are active; until the race returns, every
read that was started is active, with the guard it was given, or has completed.  The race returns the
first success.  Otherwise it returns `None` when the reads of all peers have failed, and an error when
none of its reads is active and the callback has just refused the next peer.  And it does return: until
then there is always a next step, each answer about the next peer and each completion shows what it did,
and three labels for each peer and one more are all that a race can show. -/
theorem race_tries_every_peer (peers : List P) (acts : List (Act G T E)) :
    let race := (racePayloadReads peers acts).1
    let trace := (racePayloadReads peers acts).2
    (starts trace).map (fun a => (a.peer, a.position)) = peers.zipIdx.take race.consumed ∧
    race.pending = peers.drop race.consumed ∧
    race.active.length ≤ 4 ∧
    ((∀ result, race.phase ≠ .returned result) →
      (starts trace).Perm (race.active ++ (completions trace).map Prod.fst)) ∧
    (∀ winner, race.phase = .returned (.ok (some winner)) ↔
      ∃ a, (completions trace).find? (fun c => c.2.isSome) = some (a, some winner)) ∧
    (race.phase = .returned (.ok none) → race.consumed = peers.length ∧
      (starts trace).Perm ((completions trace).map Prod.fst) ∧ ∀ c ∈ completions trace, c.2 = none) ∧
    (∀ reason, race.phase = .returned (.error reason) → race.active = [] ∧
      race.consumed < peers.length ∧ trace.getLast? = some (.refused reason) ∧
      (starts trace).Perm ((completions trace).map Prod.fst) ∧ ∀ c ∈ completions trace, c.2 = none) ∧
    ((∀ result, race.phase ≠ .returned result) →
      (∃ peer, peers[race.consumed]? = some peer ∧ ∀ answer : Except E G, ∃ race',
        step race (.reserve answer) = some (race', [shownAnswer race.consumed peer answer])) ∨
      (race.active ≠ [] ∧ ∀ a ∈ race.active, ∀ output : Option T, ∃ race',
        step race (.complete a.position output) = some (race', [.completed a output]))) ∧
    trace.length ≤ 3 * peers.length + 1 := by
  intro race trace
  have hlaw : Law peers race trace := racePayloadReads_law peers acts
  have hphase := hlaw.phase
  unfold PhaseLaw at hphase
  refine ⟨hlaw.started, hlaw.pending, hlaw.active, fun hrunning => ?_, hlaw.winner_iff, fun hp => ?_,
    fun reason hp => ?_, hlaw.enabled, hlaw.bounded⟩
  · cases hp : race.phase with
    | reserving =>
      rw [hp] at hphase
      exact hphase.1.accounted
    | waiting =>
      rw [hp] at hphase
      exact hphase.1.accounted
    | returned result => exact absurd hp (hrunning result)
  · rw [hp] at hphase
    obtain ⟨hu, hidle, hpending⟩ := hphase
    have haccounted := hu.accounted
    rw [hidle, List.nil_append] at haccounted
    rw [hlaw.pending] at hpending
    exact ⟨Nat.le_antisymm hlaw.consumed (List.drop_eq_nil_iff.mp hpending), haccounted, hu.failed⟩
  · rw [hp] at hphase
    obtain ⟨hu, hidle, hpending, hlast⟩ := hphase
    have haccounted := hu.accounted
    rw [hidle, List.nil_append] at haccounted
    rw [hlaw.pending] at hpending
    refine ⟨hidle, ?_, hlast, haccounted, hu.failed⟩
    by_contra hall
    exact hpending (List.drop_eq_nil_iff.mpr (Nat.le_of_not_lt hall))

end Steps

section Sample

/-- A guard, a refusal, the failure of the first read, and the refused peer again, which wins. -/
def sampleRace : List (Act ℕ ℕ String) :=
  [.reserve (.ok 1), .reserve (.error "busy"), .complete 0 none, .reserve (.ok 2),
    .reserve (.error "busy"), .complete 1 (some 7)]

/-- The refused peer is tried again, wins, and is the one that is returned. -/
theorem race_tries_every_peer_sampleRace :
    (racePayloadReads [10, 20, 30] sampleRace).1.phase = .returned (.ok (some 7)) ∧
      (refusals (racePayloadReads [10, 20, 30] sampleRace).2).length = 2 ∧
      (starts (racePayloadReads [10, 20, 30] sampleRace).2).map (fun a => (a.peer, a.position)) =
        [(10, 0), (20, 1)] ∧
      ∃ a, (completions (racePayloadReads [10, 20, 30] sampleRace).2).find? (fun c => c.2.isSome) =
        some (a, some 7) := by
  have hwon : (racePayloadReads [10, 20, 30] sampleRace).1.phase = .returned (.ok (some 7)) := rfl
  have hrace := race_tries_every_peer [10, 20, 30] sampleRace
  exact ⟨hwon, rfl, hrace.1, (hrace.2.2.2.2.1 7).mp hwon⟩

end Sample

end Rostra.PayloadReadRace
