/-
# One poll per follow, and no head skipped

* Section 1: the scheduler.  A poll that is not cancelled is the active one of its followee, and a
  cancelled one is of an epoch that will not come back, so its late end is mistaken for nobody else's
  (`Orderly`).  States are handed from poll to poll within an epoch and never beyond it (`Handed`).
* Section 2: the scheduler touches neither what polls have written nor where they are (`Untouched`).
* Section 3: since polls that run at the same time have different states, each of them can rely on what
  it has read before an await (`Progressed`).

A snapshot of the followees gives each of them an epoch, which changes when it is followed anew. Polls are futures
that run side by side, and a poll that was cancelled may still complete: the executor has it, and its result
arrives when the scheduler has long started another one for the same followee. The scheduler tells the two apart by
an identifier alone, so the invariant has to say that this is enough.

The states of the followees are cells of a heap that the map and the poll share. A poll reads its cell, awaits, and
writes it; the result that nothing is skipped rests on the fact that no two polls that run have one cell.
-/
import Rostra.Client.PollFolloweeHeadUpdates
import Rostra.Proofs.Signals

namespace Rostra.Client

open Rostra Db Outcome

/-- An epoch that a snapshot has dropped is in no later one. -/
def NeverReturns : List (Table RostraId FollowEpoch) → Prop
  | old :: new :: later =>
    (∀ p e, old.get p = some e → new.get p ≠ some e → ∀ s ∈ later, s.get p ≠ some e) ∧
      NeverReturns (new :: later)
  | _ => True

section Polls

variable [Primitives]

/-! ## 1. The scheduler

The invariant is about four tables at once: the futures, the active polls, the pending followees, and the states. -/

/-- The future at an index. -/
def PollWorld.At (w : PollWorld) (i : ℕ) (q : FolloweePoll) : Prop := w.pollFutures[i]? = some (some q)

/-- **The invariant of the scheduler.** The table of active polls and the set of futures describe the same polls: a
live entry has its future, and a future that has no entry was cancelled. -/
structure PollWorld.Orderly (w : PollWorld) : Prop where
  bounded : w.activePeers.keys.card ≤ MAX_ACTIVE_POLLS
  live : ∀ p act, w.activePeers.get p = some act → ∃ q, w.At act.cancel q ∧ q.peer = p ∧
    q.epoch = act.epoch ∧ q.cancelled = false ∧ w.followeeStates.get p = some q.state
  listed : ∀ i q, w.At i q → q.cancelled = false → w.activePeers.get q.peer = some ⟨q.epoch, i⟩
  retired : ∀ i q, w.At i q → q.cancelled = true →
    (∀ s ∈ w.desiredPeers :: w.snapshots, s.get q.peer ≠ some q.epoch) ∧
      ∀ p, w.followeeStates.get p ≠ some q.state
  alone : ∀ i j q q', w.At i q → w.At j q' → q.state = q'.state → i = j
  used : ∀ i q, w.At i q → q.state < w.heap.length
  states : ∀ p r, w.followeeStates.get p = some r → r < w.heap.length ∧
    (w.desiredPeers.get p).isSome = true
  apart : ∀ p p' r, w.followeeStates.get p = some r → w.followeeStates.get p' = some r → p = p'
  active : ∀ p act, w.activePeers.get p = some act → w.desiredPeers.get p = some act.epoch
  pending : ∀ p e, w.pendingPeers.get p = some e → w.desiredPeers.get p = some e
  upcoming : NeverReturns (w.desiredPeers :: w.snapshots)

/-- Nothing of this is about the tables, the clock, or whether the task runs. -/
theorem PollWorld.Orderly.elsewhere {w : PollWorld} (h : w.Orderly) (db : Database) (now : Instant)
    (running : Bool) : ({ w with db := db, now := now, running := running } : PollWorld).Orderly :=
  ⟨h.bounded, h.live, h.listed, h.retired, h.alone, h.used, h.states, h.apart, h.active, h.pending,
    h.upcoming⟩

/-- Every followee is polled or waits for its turn. -/
def PollWorld.Served (w : PollWorld) : Prop :=
  ∀ p e, w.desiredPeers.get p = some e →
    (∃ act, w.activePeers.get p = some act ∧ act.epoch = e) ∨ w.pendingPeers.get p = some e

/-- **A state is of one epoch**: whoever polls with it polls the same followee in the same epoch, and when the
followee is followed anew its state is a new one. -/
structure PollWorld.Handed (w : PollWorld) (trace : List PollLabel) : Prop where
  owner : ∀ i p e r, .started i p e r ∈ trace → r < w.heap.length ∧
    ∀ p', w.followeeStates.get p' = some r → p' = p ∧ w.desiredPeers.get p = some e
  same : ∀ i p e j p' e' r, .started i p e r ∈ trace → .started j p' e' r ∈ trace → p = p' ∧ e = e'

theorem PollWorld.Handed.elsewhere {w : PollWorld} {trace : List PollLabel} (h : w.Handed trace)
    (db : Database) (now : Instant) (running : Bool) :
    ({ w with db := db, now := now, running := running } : PollWorld).Handed trace :=
  ⟨h.owner, h.same⟩

/-! ### A snapshot arrives

The followees of the snapshot that have no poll of the right epoch become pending, polls of other epochs are
cancelled, and the states of other epochs are dropped. Where every future is afterwards is known (`reconcile_at`). -/

section Reconcile

variable {w : PollWorld} {new : Table RostraId FollowEpoch}

theorem retiredBy_eq_false {p : RostraId} : w.retiredBy new p = false ↔
    ∀ act, w.activePeers.get p = some act → new.get p = some act.epoch := by
  unfold PollWorld.retiredBy
  cases h : w.activePeers.get p with
  | none => simp
  | some act => simp

/-- Where the futures are afterwards. -/
theorem reconcile_at {i : ℕ} {q' : FolloweePoll} (h : (w.reconcileFolloweeEpochs new).At i q') :
    ∃ q, w.At i q ∧ q' = if w.retiredBy new q.peer ∧ (w.activePeers.get q.peer).any (·.cancel = i) then
      { q with cancelled := true } else q := by
  unfold PollWorld.At PollWorld.reconcileFolloweeEpochs at h
  simp only [List.getElem?_mapIdx, Option.map_eq_some_iff] at h
  obtain ⟨future, hf, q, hq, heq⟩ := h
  subst hq
  exact ⟨q, hf, heq.symm⟩

theorem at_reconcile {i : ℕ} {q : FolloweePoll} (h : w.At i q) (new : Table RostraId FollowEpoch) :
    (w.reconcileFolloweeEpochs new).At i (if w.retiredBy new q.peer ∧
      (w.activePeers.get q.peer).any (·.cancel = i) then { q with cancelled := true } else q) := by
  unfold PollWorld.At PollWorld.reconcileFolloweeEpochs at *
  simp only [List.getElem?_mapIdx, h, Option.map_some]

theorem reconcile_active (p : RostraId) : (w.reconcileFolloweeEpochs new).activePeers.get p =
    if w.retiredBy new p then none else w.activePeers.get p := by
  show (w.activePeers.retain fun peer => !w.retiredBy new peer).get p = _
  rw [Table.get_retain]
  cases w.retiredBy new p with
  | false => rfl
  | true => rfl

theorem reconcile_states {p : RostraId} {r : ℕ}
    (h : (w.reconcileFolloweeEpochs new).followeeStates.get p = some r) :
    w.followeeStates.get p = some r ∧ w.desiredPeers.get p = new.get p := by
  have hget : (w.reconcileFolloweeEpochs new).followeeStates.get p =
      if w.desiredPeers.get p = new.get p then w.followeeStates.get p else none := by
    show (w.followeeStates.retain fun peer => w.desiredPeers.get peer = new.get peer).get p = _
    rw [Table.get_retain]
    simp only [decide_eq_true_eq]
  rw [hget] at h
  split at h
  · next heq => exact ⟨h, heq⟩
  · cases h

theorem reconcile_pending (w : PollWorld) (new : Table RostraId FollowEpoch) (p : RostraId) :
    (w.reconcileFolloweeEpochs new).pendingPeers.get p =
    (if ((w.reconcileFolloweeEpochs new).activePeers.get p).isNone then new.get p else none).or
      (if w.pendingPeers.get p = new.get p then w.pendingPeers.get p else none) := by
  show ((new.retain fun peer => ((w.reconcileFolloweeEpochs new).activePeers.get peer).isNone).union
    (w.pendingPeers.retain fun peer => w.pendingPeers.get peer = new.get peer)).get p = _
  rw [Table.get_union, Table.get_retain, Table.get_retain]
  simp only [decide_eq_true_eq]

/-- What becomes of a poll: it goes on, or it is cancelled now. -/
theorem PollWorld.Orderly.reconciled (h : w.Orderly) {i : ℕ} {q' : FolloweePoll}
    (hat : (w.reconcileFolloweeEpochs new).At i q') :
    ∃ q, w.At i q ∧ q.state = q'.state ∧ q.pc = q'.pc ∧
      ((q' = q ∧ (q.cancelled = false → w.retiredBy new q.peer = false)) ∨
        (q' = { q with cancelled := true } ∧ w.desiredPeers.get q.peer = some q.epoch ∧
          new.get q.peer ≠ some q.epoch ∧ w.followeeStates.get q.peer = some q.state)) := by
  obtain ⟨q, hq, heq⟩ := reconcile_at hat
  refine ⟨q, hq, ?_, ?_, ?_⟩
  · rw [heq]
    split
    · rfl
    · rfl
  · rw [heq]
    split
    · rfl
    · rfl
  split at heq
  · next hret =>
    obtain ⟨hret, hmine⟩ := hret
    cases hact : w.activePeers.get q.peer with
    | none =>
      rw [hact] at hmine
      cases hmine
    | some act =>
      rw [hact] at hmine
      have hidx : act.cancel = i := by simpa using hmine
      obtain ⟨q₀, hq₀, -, hepoch, -, hstate⟩ := h.live q.peer act hact
      have hsame : q₀ = q := by
        unfold PollWorld.At at hq hq₀
        rw [hidx, hq] at hq₀
        exact (Option.some.inj (Option.some.inj hq₀)).symm
      subst hsame
      refine .inr ⟨heq, ?_, ?_, hstate⟩
      · rw [h.active _ act hact, hepoch]
      · intro hnew
        have hkept : w.retiredBy new q₀.peer = false := by
          rw [retiredBy_eq_false]
          intro act' hact'
          rw [hact] at hact'
          cases hact'
          rw [hnew, hepoch]
        rw [hkept] at hret
        cases hret
  · next hret =>
    refine .inl ⟨heq, fun hlive => ?_⟩
    have hact := h.listed i q hq hlive
    cases hr : w.retiredBy new q.peer with
    | false => rfl
    | true =>
      refine absurd ⟨hr, ?_⟩ hret
      rw [hact]
      simp

/-- **A snapshot keeps the order, and everybody in it is served.** Followees that are gone or in another epoch are
cancelled, and those that are new wait for a slot. -/
theorem PollWorld.Orderly.reconcile {rest : List (Table RostraId FollowEpoch)} (h : w.Orderly)
    (hs : w.snapshots = new :: rest) :
    ({ w with snapshots := rest }.reconcileFolloweeEpochs new).Orderly := by
  have hshown := h.upcoming
  rw [hs] at hshown
  have hactive : ∀ p act, (w.reconcileFolloweeEpochs new).activePeers.get p = some act →
      w.activePeers.get p = some act ∧ new.get p = some act.epoch := by
    intro p act hp
    rw [reconcile_active] at hp
    split at hp
    · cases hp
    · next hret => exact ⟨hp, retiredBy_eq_false.mp (by simpa using hret) act hp⟩
  refine ⟨?_, fun p act hp => ?_, fun i q' hat hlive => ?_, fun i q' hat hdead => ?_,
    fun i j q q' hq hq' heq => ?_, fun i q' hat => ?_, fun p r hr => ?_, fun p p' r hr hr' => ?_,
    fun p act hp => (hactive p act hp).2, fun p e hp => ?_, hshown.2⟩
  · refine (Finset.card_le_card fun p hp => ?_).trans h.bounded
    obtain ⟨act, hact⟩ := Table.mem_keys.mp hp
    exact Table.mem_keys_of_get (hactive p act hact).1
  · obtain ⟨hold, hnew⟩ := hactive p act hp
    obtain ⟨q, hq, hpeer, hepoch, hlive, hstate⟩ := h.live p act hold
    have hret : w.retiredBy new q.peer = false := by
      rw [hpeer, retiredBy_eq_false]
      intro act' hact'
      rw [hold] at hact'
      cases hact'
      exact hnew
    refine ⟨q, ?_, hpeer, hepoch, hlive, ?_⟩
    · have hat := at_reconcile hq new
      rw [hret, if_neg (by simp)] at hat
      exact hat
    · show (w.followeeStates.retain fun peer => w.desiredPeers.get peer = new.get peer).get p = _
      rw [Table.get_retain, h.active p act hold, hnew]
      simpa using hstate
  · obtain ⟨q, hq, -, -, ⟨rfl, hkept⟩ | ⟨rfl, -⟩⟩ := h.reconciled hat
    · show (w.reconcileFolloweeEpochs new).activePeers.get _ = _
      rw [reconcile_active, hkept hlive]
      exact h.listed i _ hq hlive
    · cases hlive
  · obtain ⟨q, hq, -, -, ⟨rfl, -⟩ | ⟨rfl, hold, hnew, hstate⟩⟩ := h.reconciled hat
    · obtain ⟨hgone, hfree⟩ := h.retired i _ hq hdead
      refine ⟨fun s hmem => hgone s ?_, fun p hp => hfree p (reconcile_states hp).1⟩
      rw [hs]
      exact List.mem_cons_of_mem _ hmem
    · -- it is cancelled now: the epoch is dropped, and so is its state
      refine ⟨fun s hmem => ?_, fun p hp => ?_⟩
      · rcases List.mem_cons.mp hmem with rfl | hmem
        · exact hnew
        · exact hshown.1 _ _ hold hnew s hmem
      · obtain ⟨hp, hsame⟩ := reconcile_states hp
        rw [h.apart p q.peer q.state hp hstate, hold] at hsame
        exact hnew hsame.symm
  · obtain ⟨q₁, hq₁, hs₁, -⟩ := h.reconciled hq
    obtain ⟨q₂, hq₂, hs₂, -⟩ := h.reconciled hq'
    exact h.alone i j q₁ q₂ hq₁ hq₂ (by rw [hs₁, hs₂, heq])
  · obtain ⟨q, hq, hstate, -⟩ := h.reconciled hat
    rw [← hstate]
    exact h.used i q hq
  · obtain ⟨hp, hsame⟩ := reconcile_states hr
    have hstate := h.states p r hp
    rw [hsame] at hstate
    exact hstate
  · exact h.apart p p' r (reconcile_states hr).1 (reconcile_states hr').1
  · have hget := reconcile_pending w new p
    have hp' : (w.reconcileFolloweeEpochs new).pendingPeers.get p = some e := hp
    rw [hget, Option.or_eq_some_iff] at hp'
    rcases hp' with hp' | ⟨-, hp'⟩
    · split at hp'
      · exact hp'
      · cases hp'
    · split at hp'
      · next heq => exact heq ▸ hp'
      · cases hp'

theorem reconcile_served (w : PollWorld) (new : Table RostraId FollowEpoch) :
    (w.reconcileFolloweeEpochs new).Served := by
  intro p e hp
  have hp' : new.get p = some e := hp
  cases hact : (w.reconcileFolloweeEpochs new).activePeers.get p with
  | none =>
    refine .inr ?_
    rw [reconcile_pending, hact, hp']
    rfl
  | some act =>
    refine .inl ⟨act, rfl, ?_⟩
    rw [reconcile_active] at hact
    split at hact
    · cases hact
    · next hret =>
      have hnew := retiredBy_eq_false.mp (by simpa using hret) act hact
      rw [hp'] at hnew
      exact (Option.some.inj hnew).symm

theorem PollWorld.Handed.reconcile {trace : List PollLabel} (h : w.Handed trace) :
    (w.reconcileFolloweeEpochs new).Handed trace := by
  refine ⟨fun i p e r hl => ?_, h.same⟩
  obtain ⟨hlt, hown⟩ := h.owner i p e r hl
  refine ⟨hlt, fun p' hp' => ?_⟩
  obtain ⟨hp', hsame⟩ := reconcile_states hp'
  obtain ⟨rfl, he⟩ := hown p' hp'
  exact ⟨rfl, hsame ▸ he⟩

end Reconcile

/-! ### Polls are started

As long as there is a slot, the next pending followee gets a poll with the state that the map has for it, or with a
new one. A state that is in the map belongs to no poll but the active one, so handing it over shares nothing
(`PollWorld.Orderly.unused`). -/

section Schedule

variable {w : PollWorld} {trace : List PollLabel} {peer : RostraId} {epoch : FollowEpoch}

theorem at_append {i : ℕ} {q q' : FolloweePoll} {l : List (Option FolloweePoll)} :
    (l ++ [some q'])[i]? = some (some q) ↔ l[i]? = some (some q) ∨ (i = l.length ∧ q = q') := by
  rw [List.getElem?_append]
  split
  · next hlt =>
    constructor
    · exact .inl
    · rintro (h | ⟨rfl, -⟩)
      · exact h
      · exact absurd hlt (Nat.lt_irrefl _)
  · next hge =>
    have hge' := Nat.le_of_not_lt hge
    constructor
    · intro h
      have hlt := (List.getElem?_eq_some_iff.mp h).1
      simp only [List.length_singleton] at hlt
      have hi : i = l.length := by omega
      subst hi
      simp only [Nat.sub_self, List.getElem?_cons_zero, Option.some.injEq] at h
      exact .inr ⟨rfl, h.symm⟩
    · rintro (h | ⟨rfl, rfl⟩)
      · have hlt := (List.getElem?_eq_some_iff.mp h).1
        omega
      · simp

/-- A followee without a state gets a new one. -/
theorem PollWorld.Orderly.stateOf (h : w.Orderly) (peer : RostraId)
    (hd : (w.desiredPeers.get peer).isSome = true) :
    (w.stateOf peer).1.Orderly ∧
      (w.stateOf peer).1.followeeStates.get peer = some (w.stateOf peer).2 := by
  unfold PollWorld.stateOf
  split
  · next r hr => exact ⟨h, hr⟩
  · next hnone =>
    refine ⟨⟨h.bounded, fun p act hp => ?_, h.listed, fun i q hat hdead => ?_, h.alone,
      fun i q hat => ?_, fun p r hr => ?_, fun p p' r hr hr' => ?_, h.active, h.pending, h.upcoming⟩,
      Table.get_insert_self _ _ _⟩
    · obtain ⟨q, hat, hpeer, hepoch, hlive, hstate⟩ := h.live p act hp
      refine ⟨q, hat, hpeer, hepoch, hlive, ?_⟩
      rw [Table.get_insert_of_ne]
      · exact hstate
      · rintro rfl
        rw [hnone] at hstate
        cases hstate
    · obtain ⟨hgone, hfree⟩ := h.retired i q hat hdead
      refine ⟨hgone, fun p hp => ?_⟩
      rw [Table.get_insert] at hp
      split at hp
      · have hlt := h.used i q hat
        rw [← Option.some.inj hp] at hlt
        exact Nat.lt_irrefl _ hlt
      · exact hfree p hp
    · exact Nat.lt_of_lt_of_le (h.used i q hat) (by simp)
    · rw [Table.get_insert] at hr
      split at hr
      · next heq =>
        cases hr
        exact ⟨by simp, heq ▸ hd⟩
      · exact ⟨Nat.lt_of_lt_of_le (h.states p r hr).1 (by simp), (h.states p r hr).2⟩
    · rw [Table.get_insert] at hr hr'
      split at hr
      · next heq =>
        split at hr'
        · next heq' => rw [heq, heq']
        · cases hr
          exact absurd (h.states p' _ hr').1 (Nat.lt_irrefl _)
      · split at hr'
        · cases hr'
          exact absurd (h.states p _ hr).1 (Nat.lt_irrefl _)
        · exact h.apart p p' r hr hr'

/-- A state that is in the map is used by no poll that is not the active one. -/
theorem PollWorld.Orderly.unused (h : w.Orderly) {r : ℕ} (hr : w.followeeStates.get peer = some r)
    (hidle : w.activePeers.get peer = none) {i : ℕ} {q : FolloweePoll} (hat : w.At i q) :
    q.state ≠ r := by
  rintro rfl
  cases hc : q.cancelled with
  | true => exact (h.retired i q hat hc).2 peer hr
  | false =>
    have hact := h.listed i q hat hc
    obtain ⟨q₀, hat₀, -, -, -, hstate⟩ := h.live _ _ hact
    have hsame : q₀ = q := by
      unfold PollWorld.At at hat hat₀
      rw [hat] at hat₀
      exact (Option.some.inj (Option.some.inj hat₀)).symm
    subst hsame
    rw [h.apart _ _ _ hr hstate, hact] at hidle
    cases hidle

/-- A poll is pushed, for a followee that has a state and no poll. -/
theorem PollWorld.Orderly.push {r : ℕ} (h : w.Orderly) (hr : w.followeeStates.get peer = some r)
    (hidle : w.activePeers.get peer = none) (hd : w.desiredPeers.get peer = some epoch)
    (hroom : w.activePeers.keys.card < MAX_ACTIVE_POLLS) :
    ({ w with
      activePeers := w.activePeers.insert peer ⟨epoch, w.pollFutures.length⟩
      pollFutures := w.pollFutures ++ [some { peer := peer, epoch := epoch, state := r }] } :
      PollWorld).Orderly := by
  refine ⟨?_, fun p act hp => ?_, fun i q hat hlive => ?_, fun i q hat hdead => ?_,
    fun i j q q' hq hq' heq => ?_, fun i q hat => ?_, h.states, h.apart, fun p act hp => ?_, h.pending,
    h.upcoming⟩
  · rw [Table.keys_insert]
    exact (Finset.card_insert_le _ _).trans hroom
  · rw [Table.get_insert] at hp
    split at hp
    · next heq =>
      cases hp
      subst heq
      exact ⟨_, at_append.mpr (.inr ⟨rfl, rfl⟩), rfl, rfl, rfl, hr⟩
    · obtain ⟨q, hat, hrest⟩ := h.live p act hp
      exact ⟨q, at_append.mpr (.inl hat), hrest⟩
  · rcases at_append.mp hat with hat | ⟨rfl, rfl⟩
    · have hact := h.listed i q hat hlive
      show (w.activePeers.insert peer _).get q.peer = _
      rw [Table.get_insert_of_ne]
      · exact hact
      · intro heq
        rw [heq, hidle] at hact
        cases hact
    · exact Table.get_insert_self _ _ _
  · rcases at_append.mp hat with hat | ⟨rfl, rfl⟩
    · exact h.retired i q hat hdead
    · cases hdead
  · rcases at_append.mp hq with hq | ⟨rfl, rfl⟩
    · rcases at_append.mp hq' with hq' | ⟨rfl, rfl⟩
      · exact h.alone i j q q' hq hq' heq
      · exact absurd heq (h.unused hr hidle hq)
    · rcases at_append.mp hq' with hq' | ⟨rfl, rfl⟩
      · exact absurd heq.symm (h.unused hr hidle hq')
      · rfl
  · rcases at_append.mp hat with hat | ⟨rfl, rfl⟩
    · exact h.used i q hat
    · exact (h.states peer r hr).1
  · rw [Table.get_insert] at hp
    split at hp
    · next heq =>
      cases hp
      rw [heq]
      exact hd
    · exact h.active p act hp

theorem PollWorld.Handed.stateOf (h : w.Handed trace) (peer : RostraId) :
    (w.stateOf peer).1.Handed trace := by
  unfold PollWorld.stateOf
  split
  · exact h
  · refine ⟨fun i p e r hl => ?_, h.same⟩
    obtain ⟨hlt, hown⟩ := h.owner i p e r hl
    refine ⟨Nat.lt_of_lt_of_le hlt (by simp), fun p' hp' => ?_⟩
    rw [Table.get_insert] at hp'
    split at hp'
    · cases hp'
      exact absurd hlt (Nat.lt_irrefl _)
    · exact hown p' hp'

/-- Whoever had the state before had it for the same epoch. -/
theorem PollWorld.Handed.push {r : ℕ} (h : w.Handed trace) (ho : w.Orderly)
    (hr : w.followeeStates.get peer = some r) (hd : w.desiredPeers.get peer = some epoch)
    (active : Table RostraId ActiveFolloweePoll) (futures : List (Option FolloweePoll)) (n : ℕ) :
    ({ w with activePeers := active, pollFutures := futures } : PollWorld).Handed
      (trace ++ [.started n peer epoch r]) := by
  have hnew : ∀ i p e r', PollLabel.started i p e r' ∈ trace ++ [.started n peer epoch r] →
      .started i p e r' ∈ trace ∨ (p = peer ∧ e = epoch ∧ r' = r) := by
    intro i p e r' hl
    rcases List.mem_append.mp hl with hl | hl
    · exact .inl hl
    · cases List.mem_singleton.mp hl
      exact .inr ⟨rfl, rfl, rfl⟩
  have hearlier : ∀ i p e, PollLabel.started i p e r ∈ trace → p = peer ∧ e = epoch := by
    intro i p e hl
    obtain ⟨rfl, he⟩ := (h.owner i p e r hl).2 peer hr
    rw [hd] at he
    exact ⟨rfl, (Option.some.inj he).symm⟩
  refine ⟨fun i p e r' hl => ?_, fun i p e j p' e' r' hl hl' => ?_⟩
  · rcases hnew i p e r' hl with hold | ⟨rfl, rfl, rfl⟩
    · exact h.owner i p e r' hold
    · exact ⟨(ho.states _ _ hr).1, fun p' hp' => ⟨ho.apart _ _ _ hp' hr, hd⟩⟩
  · rcases hnew i p e r' hl with hold | ⟨hp, he, hr₁⟩
    · rcases hnew j p' e' r' hl' with hold' | ⟨hp', he', hr₂⟩
      · exact h.same i p e j p' e' r' hold hold'
      · obtain ⟨hp, he⟩ := hearlier i p e (hr₂ ▸ hold)
        exact ⟨hp.trans hp'.symm, he.trans he'.symm⟩
    · rcases hnew j p' e' r' hl' with hold' | ⟨hp', he', -⟩
      · obtain ⟨hp', he'⟩ := hearlier j p' e' (hr₁ ▸ hold')
        exact ⟨hp.trans hp'.symm, he.trans he'.symm⟩
      · exact ⟨hp.trans hp'.symm, he.trans he'.symm⟩

/-- What holds after every iteration, when the loop of the scheduler has filled the slots it could. -/
structure PollWorld.Settled (w : PollWorld) (trace : List PollLabel) : Prop where
  orderly : w.Orderly
  served : w.Served
  handed : w.Handed trace

omit [Primitives] in
theorem takeNextPending_mem {pending : Table RostraId FollowEpoch} {last : Option RostraId}
    (h : PollWorld.takeNextPending pending last = some peer) : peer ∈ pending.keys := by
  unfold PollWorld.takeNextPending at h
  rcases Option.or_eq_some_iff.mp h with h | ⟨-, h⟩
  · obtain ⟨c, -, h⟩ := Option.bind_eq_some_iff.mp h
    exact Table.nextAfter_mem h
  · exact Table.least_mem h

omit [Primitives] in
theorem takeNextPending_none {pending : Table RostraId FollowEpoch} {last : Option RostraId}
    (h : PollWorld.takeNextPending pending last = none) : pending.keys = ∅ := by
  unfold PollWorld.takeNextPending at h
  exact Table.least_none (Option.or_eq_none_iff.mp h).2

/-- A followee is taken off the pending ones. -/
theorem PollWorld.Orderly.taken (h : w.Orderly) (peer : RostraId) :
    ({ w with
      pendingPeers := w.pendingPeers.remove peer
      lastScheduledPeer := some peer } : PollWorld).Orderly where
  bounded := h.bounded
  live := h.live
  listed := h.listed
  retired := h.retired
  alone := h.alone
  used := h.used
  states := h.states
  apart := h.apart
  active := h.active
  pending := by
    intro p e hp
    rw [Table.get_remove] at hp
    split at hp
    · cases hp
    · exact h.pending p e hp
  upcoming := h.upcoming

/-- It is polled already. -/
theorem PollWorld.Settled.skip (h : w.Settled trace)
    (hact : (w.activePeers.get peer).isSome = true) :
    ({ w with
      pendingPeers := w.pendingPeers.remove peer
      lastScheduledPeer := some peer } : PollWorld).Settled trace := by
  refine ⟨h.orderly.taken peer, fun p e hp => ?_, ⟨h.handed.owner, h.handed.same⟩⟩
  rcases h.served p e hp with hs | hs
  · exact .inl hs
  · by_cases heq : p = peer
    · subst heq
      obtain ⟨act, hact⟩ := Option.isSome_iff_exists.mp hact
      have he := h.orderly.active _ _ hact
      have hp' : w.desiredPeers.get p = some e := hp
      rw [hp'] at he
      exact .inl ⟨act, hact, (Option.some.inj he).symm⟩
    · exact .inr ((Table.get_remove_of_ne _ heq).trans hs)

/-- Its poll is started. -/
theorem PollWorld.Settled.start (h : w.Settled trace) (hp : w.pendingPeers.get peer = some epoch)
    (hidle : w.activePeers.get peer = none) (hroom : w.activePeers.keys.card < MAX_ACTIVE_POLLS) :
    (({ w with
      pendingPeers := w.pendingPeers.remove peer
      lastScheduledPeer := some peer } : PollWorld).start peer epoch).1.Settled
      (trace ++ [(({ w with
        pendingPeers := w.pendingPeers.remove peer
        lastScheduledPeer := some peer } : PollWorld).start peer epoch).2]) := by
  have hd := h.orderly.pending peer epoch hp
  generalize hw₁ : ({ w with
    pendingPeers := w.pendingPeers.remove peer
    lastScheduledPeer := some peer } : PollWorld) = w₁
  have ho₁ : w₁.Orderly := hw₁ ▸ h.orderly.taken peer
  have hh₁ : w₁.Handed trace := by
    subst hw₁
    exact ⟨h.handed.owner, h.handed.same⟩
  have hactive : w₁.activePeers = w.activePeers := by
    subst hw₁
    rfl
  have hdesired : w₁.desiredPeers = w.desiredPeers := by
    subst hw₁
    rfl
  have hpending : w₁.pendingPeers = w.pendingPeers.remove peer := by
    subst hw₁
    rfl
  obtain ⟨ho₂, hr⟩ := ho₁.stateOf peer (by rw [hdesired, hd]; rfl)
  have hh₂ := hh₁.stateOf peer
  have hframe : (w₁.stateOf peer).1.activePeers = w₁.activePeers ∧
      (w₁.stateOf peer).1.desiredPeers = w₁.desiredPeers ∧
      (w₁.stateOf peer).1.pendingPeers = w₁.pendingPeers ∧
      (w₁.stateOf peer).1.pollFutures = w₁.pollFutures := by
    unfold PollWorld.stateOf
    split
    · exact ⟨rfl, rfl, rfl, rfl⟩
    · exact ⟨rfl, rfl, rfl, rfl⟩
  obtain ⟨hact₂, hd₂, hp₂, hf₂⟩ := hframe
  have hd' : (w₁.stateOf peer).1.desiredPeers.get peer = some epoch := by rw [hd₂, hdesired, hd]
  have hpushed := ho₂.push hr (by rw [hact₂, hactive]; exact hidle) hd'
    (by rw [hact₂, hactive]; exact hroom)
  have hstart : w₁.start peer epoch = ({ (w₁.stateOf peer).1 with
      activePeers := (w₁.stateOf peer).1.activePeers.insert peer
        ⟨epoch, (w₁.stateOf peer).1.pollFutures.length⟩
      pollFutures := (w₁.stateOf peer).1.pollFutures ++
        [some { peer := peer, epoch := epoch, state := (w₁.stateOf peer).2 }] },
      .started (w₁.stateOf peer).1.pollFutures.length peer epoch (w₁.stateOf peer).2) := by
    simp only [PollWorld.start, hf₂]
  rw [hstart]
  refine ⟨hpushed, fun p e hdp => ?_, hh₂.push ho₂ hr hd' _ _ _⟩
  have hdp' : w.desiredPeers.get p = some e := by
    have : (w₁.stateOf peer).1.desiredPeers.get p = some e := hdp
    rwa [hd₂, hdesired] at this
  by_cases heq : p = peer
  · subst heq
    rw [hd] at hdp'
    cases hdp'
    exact .inl ⟨_, Table.get_insert_self _ _ _, rfl⟩
  · rcases h.served p e hdp' with ⟨act, hact, he⟩ | hs
    · refine .inl ⟨act, ?_, he⟩
      show ((w₁.stateOf peer).1.activePeers.insert peer _).get p = some act
      rw [Table.get_insert_of_ne _ _ heq, hact₂, hactive, hact]
    · refine .inr ?_
      show (w₁.stateOf peer).1.pendingPeers.get p = some e
      rw [hp₂, hpending, Table.get_remove_of_ne _ heq, hs]

/-- The loop has done what it could. -/
def PollWorld.Scheduled (w : PollWorld) : Prop :=
  MAX_ACTIVE_POLLS ≤ w.activePeers.keys.card ∨ w.pendingPeers.keys = ∅

/-- **The loop of `schedule_pending` keeps the order**, and ends for a reason. -/
theorem scheduleLoop_settled : ∀ (turns : ℕ) (w : PollWorld) (trace : List PollLabel),
    w.Settled trace → w.pendingPeers.keys.card ≤ turns →
    (w.scheduleLoop turns).1.Settled (trace ++ (w.scheduleLoop turns).2) ∧
      (w.scheduleLoop turns).1.Scheduled
  | 0, w, trace, h, hturns => by
    unfold PollWorld.scheduleLoop
    rw [List.append_nil]
    exact ⟨h, .inr (Finset.card_eq_zero.mp (Nat.le_zero.mp hturns))⟩
  | turns + 1, w, trace, h, hturns => by
    unfold PollWorld.scheduleLoop
    split
    · next hroom =>
      cases hnext : PollWorld.takeNextPending w.pendingPeers w.lastScheduledPeer with
      | none =>
        dsimp only
        rw [List.append_nil]
        exact ⟨h, .inr (takeNextPending_none hnext)⟩
      | some peer =>
        have hmem := takeNextPending_mem hnext
        obtain ⟨epoch, hp⟩ := Table.mem_keys.mp hmem
        have hcard : (w.pendingPeers.remove peer).keys.card ≤ turns := by
          have hkeys : (w.pendingPeers.remove peer).keys ⊆ w.pendingPeers.keys.erase peer := by
            intro p hp
            obtain ⟨e, he⟩ := Table.mem_keys.mp hp
            rw [Table.get_remove] at he
            split at he
            · cases he
            · next hne => exact Finset.mem_erase.mpr ⟨hne, Table.mem_keys_of_get he⟩
          have hle := Finset.card_le_card hkeys
          rw [Finset.card_erase_of_mem hmem] at hle
          omega
        dsimp only
        rw [hp]
        dsimp only
        split
        · next hact => exact scheduleLoop_settled turns _ trace (h.skip hact) hcard
        · next hact =>
          have hidle : w.activePeers.get peer = none := by simpa using hact
          have hstart := h.start hp hidle hroom
          have hpend : (({ w with
              pendingPeers := w.pendingPeers.remove peer
              lastScheduledPeer := some peer } : PollWorld).start peer epoch).1.pendingPeers =
                w.pendingPeers.remove peer := by
            unfold PollWorld.start PollWorld.stateOf
            dsimp only
            split
            · rfl
            · rfl
          have hrest := scheduleLoop_settled turns _ _ hstart (by rw [hpend]; exact hcard)
          rw [List.append_assoc] at hrest
          exact hrest
    · next hfull =>
      dsimp only
      rw [List.append_nil]
      exact ⟨h, .inl (Nat.le_of_not_lt hfull)⟩

end Schedule

/-! ### A poll returns

The future goes, and its followee is pending again if it was the active one. The proof that a late end is harmless
is here: its epoch is over, or the poll was retired together with it. -/

section Return

variable {w : PollWorld} {trace : List PollLabel} {i : ℕ} {q : FolloweePoll}

/-- The world without a future that has returned. -/
def PollWorld.without (w : PollWorld) (i : ℕ) (q : FolloweePoll) : PollWorld :=
  if (w.activePeers.get q.peer).any (·.epoch = q.epoch) then
    { w with pollFutures := w.pollFutures.set i none, activePeers := w.activePeers.remove q.peer }
  else { w with pollFutures := w.pollFutures.set i none }

theorem completed_eq (w : PollWorld) (i : ℕ) (q : FolloweePoll) (ok : Bool) :
    w.completed i q ok =
      if ok then
        (if (w.without i q).desiredPeers.get q.peer = some q.epoch then
          { w.without i q with pendingPeers := (w.without i q).pendingPeers.insert q.peer q.epoch }
        else w.without i q).schedulePending
      else ({ w.without i q with running := false }, []) := rfl

theorem at_set {j : ℕ} {q' : FolloweePoll} {l : List (Option FolloweePoll)}
    (h : (l.set i none)[j]? = some (some q')) : j ≠ i ∧ l[j]? = some (some q') := by
  rw [List.getElem?_set] at h
  split at h
  · split at h
    · cases h
    · cases h
  · next hne => exact ⟨fun heq => hne heq.symm, h⟩

theorem set_at {j : ℕ} {q' : FolloweePoll} {l : List (Option FolloweePoll)} (hne : j ≠ i)
    (h : l[j]? = some (some q')) : (l.set i none)[j]? = some (some q') := by
  rw [List.getElem?_set_ne fun heq => hne heq.symm]
  exact h

/-- **A late end is mistaken for nobody else's**: a poll that returns is the active one of its followee,
or cancelled and of an epoch that is not desired. -/
theorem PollWorld.Orderly.returns (h : w.Orderly) (hat : w.At i q) :
    (q.cancelled = false ∧ w.activePeers.get q.peer = some ⟨q.epoch, i⟩ ∧
      w.desiredPeers.get q.peer = some q.epoch ∧ w.without i q = { w with
        pollFutures := w.pollFutures.set i none
        activePeers := w.activePeers.remove q.peer }) ∨
    (q.cancelled = true ∧ w.desiredPeers.get q.peer ≠ some q.epoch ∧
      w.without i q = { w with pollFutures := w.pollFutures.set i none }) := by
  cases hc : q.cancelled with
  | false =>
    have hact := h.listed i q hat hc
    refine .inl ⟨rfl, hact, h.active _ _ hact, ?_⟩
    unfold PollWorld.without
    rw [hact, if_pos (by simp)]
  | true =>
    have hgone := (h.retired i q hat hc).1 _ List.mem_cons_self
    refine .inr ⟨rfl, hgone, ?_⟩
    unfold PollWorld.without
    rw [if_neg]
    intro hany
    cases hact : w.activePeers.get q.peer with
    | none =>
      rw [hact] at hany
      cases hany
    | some act =>
      rw [hact] at hany
      have hepoch : act.epoch = q.epoch := by simpa using hany
      exact hgone (by rw [h.active _ _ hact, hepoch])

theorem PollWorld.Orderly.without (h : w.Orderly) (hat : w.At i q) : (w.without i q).Orderly := by
  rcases h.returns hat with ⟨hlive, hmine, -, heq⟩ | ⟨hdead, -, heq⟩
  · rw [heq]
    refine ⟨?_, fun p act hp => ?_, fun j q' hat' hlive' => ?_, fun j q' hat' => h.retired j q'
      (at_set hat').2, fun j k q₁ q₂ hj hk => h.alone j k q₁ q₂ (at_set hj).2 (at_set hk).2,
      fun j q' hat' => h.used j q' (at_set hat').2, h.states, h.apart, fun p act hp => ?_, h.pending,
      h.upcoming⟩
    · refine (Finset.card_le_card fun p hp => ?_).trans h.bounded
      obtain ⟨act, hact⟩ := Table.mem_keys.mp hp
      rw [Table.get_remove] at hact
      split at hact
      · cases hact
      · exact Table.mem_keys_of_get hact
    · rw [Table.get_remove] at hp
      split at hp
      · cases hp
      · next hne =>
        obtain ⟨q₀, hat₀, hpeer, hrest⟩ := h.live p act hp
        refine ⟨q₀, set_at ?_ hat₀, hpeer, hrest⟩
        intro hidx
        unfold PollWorld.At at hat hat₀
        rw [hidx, hat] at hat₀
        cases hat₀
        exact hne hpeer.symm
    · obtain ⟨hne, hat'⟩ := at_set hat'
      have hact := h.listed j q' hat' hlive'
      show (w.activePeers.remove q.peer).get q'.peer = _
      rw [Table.get_remove_of_ne]
      · exact hact
      · intro hpeer
        rw [hpeer, hmine] at hact
        have hidx : i = j := congrArg ActiveFolloweePoll.cancel (Option.some.inj hact)
        exact hne hidx.symm
    · rw [Table.get_remove] at hp
      split at hp
      · cases hp
      · exact h.active p act hp
  · rw [heq]
    refine ⟨h.bounded, fun p act hp => ?_, fun j q' hat' => h.listed j q' (at_set hat').2,
      fun j q' hat' => h.retired j q' (at_set hat').2,
      fun j k q₁ q₂ hj hk => h.alone j k q₁ q₂ (at_set hj).2 (at_set hk).2,
      fun j q' hat' => h.used j q' (at_set hat').2, h.states, h.apart, h.active, h.pending, h.upcoming⟩
    obtain ⟨q₀, hat₀, hpeer, hepoch, hlive, hstate⟩ := h.live p act hp
    refine ⟨q₀, set_at ?_ hat₀, hpeer, hepoch, hlive, hstate⟩
    intro hidx
    unfold PollWorld.At at hat hat₀
    rw [hidx, hat] at hat₀
    cases hat₀
    rw [hdead] at hlive
    cases hlive

theorem without_states (w : PollWorld) (i : ℕ) (q : FolloweePoll) :
    (w.without i q).followeeStates = w.followeeStates ∧ (w.without i q).heap = w.heap ∧
      (w.without i q).desiredPeers = w.desiredPeers ∧ (w.without i q).db = w.db ∧
      (w.without i q).pollFutures = w.pollFutures.set i none := by
  unfold PollWorld.without
  split
  · exact ⟨rfl, rfl, rfl, rfl, rfl⟩
  · exact ⟨rfl, rfl, rfl, rfl, rfl⟩

theorem PollWorld.Handed.without (h : w.Handed trace) : (w.without i q).Handed trace := by
  obtain ⟨hstates, hheap, hdesired, -⟩ := without_states w i q
  refine ⟨fun j p e r hl => ?_, h.same⟩
  rw [hstates, hheap, hdesired]
  exact h.owner j p e r hl

/-- The followee waits for its next turn. -/
theorem PollWorld.Settled.returned (h : w.Settled trace) (hat : w.At i q) :
    (if (w.without i q).desiredPeers.get q.peer = some q.epoch then
      { w.without i q with pendingPeers := (w.without i q).pendingPeers.insert q.peer q.epoch }
    else w.without i q).Settled trace := by
  have ho := h.orderly.without hat
  have hh := h.handed.without (i := i) (q := q)
  split
  · next hd =>
    refine ⟨⟨ho.bounded, ho.live, ho.listed, ho.retired, ho.alone, ho.used, ho.states, ho.apart,
      ho.active, fun p e hp => ?_, ho.upcoming⟩, fun p e hp => ?_, ⟨hh.owner, hh.same⟩⟩
    · rw [Table.get_insert] at hp
      split at hp
      · next heq =>
        cases hp
        rw [heq]
        exact hd
      · exact ho.pending p e hp
    · have hp' : (w.without i q).desiredPeers.get p = some e := hp
      by_cases heq : p = q.peer
      · subst heq
        rw [hd] at hp'
        cases hp'
        exact .inr (Table.get_insert_self _ _ _)
      · rw [(without_states w i q).2.2.1] at hp'
        rcases h.served p e hp' with ⟨act, hact, he⟩ | hs
        · refine .inl ⟨act, ?_, he⟩
          rcases h.orderly.returns hat with ⟨-, -, -, hw⟩ | ⟨-, -, hw⟩
          · show (w.without i q).activePeers.get p = some act
            rw [hw]
            exact (Table.get_remove_of_ne _ heq).trans hact
          · show (w.without i q).activePeers.get p = some act
            rw [hw]
            exact hact
        · refine .inr ((Table.get_insert_of_ne _ _ heq).trans ?_)
          rcases h.orderly.returns hat with ⟨-, -, -, hw⟩ | ⟨-, -, hw⟩
          · rw [hw]
            exact hs
          · rw [hw]
            exact hs
  · next hd =>
    refine ⟨ho, fun p e hp => ?_, hh⟩
    rw [(without_states w i q).2.2.1] at hd hp
    rcases h.orderly.returns hat with ⟨-, -, hd', -⟩ | ⟨-, -, hw⟩
    · exact absurd hd' hd
    · rw [hw]
      exact h.served p e hp

end Return

/-! ## 2. What the scheduler leaves alone

To a poll the scheduler is the environment. It may add cells to the heap and futures to the list, but it writes no
cell that exists and moves no poll. -/

/-- Nothing that polls have written or read has changed; new polls are at their beginning. What the scheduler does
is invisible to the polls that go on. -/
structure PollWorld.Untouched (w w' : PollWorld) : Prop where
  db : w'.db = w.db
  heap : ∃ more, w'.heap = w.heap ++ more
  futures : ∀ i q', w'.At i q' → q'.pc = .backoff ∨ ∃ q, w.At i q ∧ q.state = q'.state ∧ q.pc = q'.pc

/-- The labels of the scheduler. -/
def OnlyStarted (shown : List PollLabel) : Prop := ∀ l ∈ shown, ∃ i p e r, l = .started i p e r

section Untouched

variable {w w' w'' : PollWorld}

theorem PollWorld.Untouched.trans (h : w.Untouched w') (h' : w'.Untouched w'') :
    w.Untouched w'' := by
  refine ⟨h'.db.trans h.db, ?_, fun i q hat => ?_⟩
  · obtain ⟨more, heq⟩ := h.heap
    obtain ⟨more', heq'⟩ := h'.heap
    exact ⟨more ++ more', by rw [heq', heq, List.append_assoc]⟩
  · rcases h'.futures i q hat with hnew | ⟨q', hat', hstate, hpc⟩
    · exact .inl hnew
    · rcases h.futures i q' hat' with hnew | ⟨q₀, hat₀, hstate₀, hpc₀⟩
      · exact .inl (hpc ▸ hnew)
      · exact .inr ⟨q₀, hat₀, hstate₀.trans hstate, hpc₀.trans hpc⟩

/-- Only tables of the scheduler are different. -/
theorem PollWorld.Untouched.of_eq (hdb : w'.db = w.db) (hheap : w'.heap = w.heap)
    (hfutures : w'.pollFutures = w.pollFutures) : w.Untouched w' := by
  refine ⟨hdb, ⟨[], by rw [hheap, List.append_nil]⟩, fun i q hat => .inr ⟨q, ?_, rfl, rfl⟩⟩
  unfold PollWorld.At at *
  rwa [hfutures] at hat

theorem untouched_start (w : PollWorld) (peer : RostraId) (epoch : FollowEpoch) :
    w.Untouched (w.start peer epoch).1 := by
  unfold PollWorld.start PollWorld.stateOf
  dsimp only
  split
  · refine ⟨rfl, ⟨[], (List.append_nil _).symm⟩, fun i q hat => ?_⟩
    rcases at_append.mp hat with hat | ⟨-, rfl⟩
    · exact .inr ⟨q, hat, rfl, rfl⟩
    · exact .inl rfl
  · refine ⟨rfl, ⟨_, rfl⟩, fun i q hat => ?_⟩
    rcases at_append.mp hat with hat | ⟨-, rfl⟩
    · exact .inr ⟨q, hat, rfl, rfl⟩
    · exact .inl rfl

theorem untouched_scheduleLoop : ∀ (turns : ℕ) (w : PollWorld),
    w.Untouched (w.scheduleLoop turns).1 ∧ OnlyStarted (w.scheduleLoop turns).2
  | 0, w => ⟨.of_eq rfl rfl rfl, fun l hl => by cases hl⟩
  | turns + 1, w => by
    have hsame : w.Untouched w ∧ OnlyStarted [] := ⟨.of_eq rfl rfl rfl, fun l hl => by cases hl⟩
    unfold PollWorld.scheduleLoop
    split
    · split
      · exact hsame
      · next peer _ =>
        split
        · exact hsame
        · next epoch _ =>
          have htaken : w.Untouched { w with
              pendingPeers := w.pendingPeers.remove peer
              lastScheduledPeer := some peer } := .of_eq rfl rfl rfl
          dsimp only
          split
          · obtain ⟨hu, hl⟩ := untouched_scheduleLoop turns { w with
              pendingPeers := w.pendingPeers.remove peer
              lastScheduledPeer := some peer }
            exact ⟨htaken.trans hu, hl⟩
          · obtain ⟨hu, hl⟩ := untouched_scheduleLoop turns (({ w with
              pendingPeers := w.pendingPeers.remove peer
              lastScheduledPeer := some peer } : PollWorld).start peer epoch).1
            refine ⟨(htaken.trans (untouched_start _ peer epoch)).trans hu, fun l hin => ?_⟩
            rcases List.mem_cons.mp hin with rfl | hin
            · exact ⟨_, _, _, _, rfl⟩
            · exact hl l hin
    · exact hsame

theorem untouched_reconcile (w : PollWorld) (new : Table RostraId FollowEpoch) :
    w.Untouched (w.reconcileFolloweeEpochs new) := by
  refine ⟨rfl, ⟨[], (List.append_nil _).symm⟩, fun i q' hat => ?_⟩
  obtain ⟨q, hat, heq⟩ := reconcile_at hat
  refine .inr ⟨q, hat, ?_, ?_⟩
  · rw [heq]
    split
    · rfl
    · rfl
  · rw [heq]
    split
    · rfl
    · rfl

theorem untouched_without (w : PollWorld) (i : ℕ) (q : FolloweePoll) :
    w.Untouched (w.without i q) := by
  obtain ⟨-, hheap, -, hdb, hfutures⟩ := without_states w i q
  refine ⟨hdb, ⟨[], by rw [hheap, List.append_nil]⟩, fun j q' hat => ?_⟩
  unfold PollWorld.At at hat
  rw [hfutures] at hat
  exact .inr ⟨q', (at_set hat).2, rfl, rfl⟩

theorem untouched_completed (w : PollWorld) (i : ℕ) (q : FolloweePoll) (ok : Bool) :
    w.Untouched (w.completed i q ok).1 ∧ OnlyStarted (w.completed i q ok).2 := by
  rw [completed_eq]
  have hgone := untouched_without w i q
  split
  · split
    · have hqueued : (w.without i q).Untouched { w.without i q with
          pendingPeers := (w.without i q).pendingPeers.insert q.peer q.epoch } := .of_eq rfl rfl rfl
      obtain ⟨hu, hl⟩ := untouched_scheduleLoop
        ((w.without i q).pendingPeers.insert q.peer q.epoch).keys.card { w.without i q with
          pendingPeers := (w.without i q).pendingPeers.insert q.peer q.epoch }
      exact ⟨(hgone.trans hqueued).trans hu, hl⟩
    · obtain ⟨hu, hl⟩ := untouched_scheduleLoop _ (w.without i q)
      exact ⟨hgone.trans hu, hl⟩
  · exact ⟨hgone.trans (.of_eq rfl rfl rfl), fun l hl => by cases hl⟩

theorem untouched_changed (w : PollWorld) (new : Table RostraId FollowEpoch) :
    w.Untouched (w.changed new).1 ∧ OnlyStarted (w.changed new).2 := by
  obtain ⟨hu, hl⟩ := untouched_scheduleLoop _ (w.reconcileFolloweeEpochs new)
  exact ⟨(untouched_reconcile w new).trans hu, hl⟩

end Untouched

/-! ## 3. Within an epoch

A head that a followee reported is recorded as pending, its event is fetched and processed, and only then is the
record cleared. What a poll knows between two of these steps is a fact about its cell (`PollWorld.Knows`), and
stays true while it awaits because the cell is its own. -/

/-- The event is in the database. -/
def PollWorld.Stored (w : PollWorld) (id : ShortEventId) : Prop :=
  (w.db.ev.events.get id).isSome = true

/-- What a poll knows of its state at an await. -/
def PollWorld.Knows (w : PollWorld) (s : FolloweePollState) : PollPc → Prop
  | .retrying _ id | .fetching _ id => s.remoteProgress = .pending id
  | .persisting _ id event => s.remoteProgress = .pending id ∧ event.id = id
  | .completing _ id => s.remoteProgress = .pending id ∧ w.Stored id
  | .cursor _ | .waiting _ _ | .recording _ _ => s.pendingEvent = none
  | _ => True

/-- **What was recorded is stored or pending.** A poll works with a copy of the state that it read at its last
await, so the invariant also says what each poll knows of the state as it is now. -/
structure PollWorld.Progressed (w : PollWorld) (trace : List PollLabel) : Prop where
  recorded : ∀ r id, .recorded r id ∈ trace →
    w.Stored id ∨ ∃ s, w.heap[r]? = some s ∧ s.remoteProgress = .pending id
  knows : ∀ i q s, w.At i q → w.heap[q.state]? = some s → w.Knows s q.pc

section Progress

variable {w w' : PollWorld} {trace shown : List PollLabel} {i : ℕ} {q : FolloweePoll}
  {s : FolloweePollState}

theorem PollWorld.Progressed.untouched (h : w.Progressed trace) (ho : w.Orderly)
    (hu : w.Untouched w') (hl : OnlyStarted shown) : w'.Progressed (trace ++ shown) := by
  obtain ⟨more, hheap⟩ := hu.heap
  refine ⟨fun r id hin => ?_, fun i q' s hat hs => ?_⟩
  · rcases List.mem_append.mp hin with hin | hin
    · rcases h.recorded r id hin with hstored | ⟨s, hs, hpending⟩
      · refine .inl ?_
        unfold PollWorld.Stored at *
        rwa [hu.db]
      · refine .inr ⟨s, ?_, hpending⟩
        rw [hheap, List.getElem?_append_left (List.getElem?_eq_some_iff.mp hs).1]
        exact hs
    · obtain ⟨_, _, _, _, heq⟩ := hl _ hin
      cases heq
  · rcases hu.futures i q' hat with hnew | ⟨q, hat, hstate, hpc⟩
    · rw [hnew]
      trivial
    · rw [← hstate, hheap, List.getElem?_append_left (ho.used i q hat)] at hs
      have hknows := h.knows i q s hat hs
      rw [hpc] at hknows
      unfold PollWorld.Knows PollWorld.Stored at *
      rw [hu.db]
      exact hknows

/-- A poll moves to an await at which it knows what it has to. -/
theorem PollWorld.Progressed.goto (h : w.Progressed trace) (hs : w.heap[q.state]? = some s)
    {pc : PollPc} (hknows : w.Knows s pc) : (w.goto i q pc).Progressed (trace ++ []) := by
  rw [List.append_nil]
  refine ⟨h.recorded, fun j q' s' hat hs' => ?_⟩
  unfold PollWorld.At PollWorld.goto at hat
  rw [List.getElem?_set] at hat
  split at hat
  · split at hat
    · cases hat
      have hsame : s' = s := Option.some.inj (hs'.symm.trans hs)
      rw [hsame]
      exact hknows
    · cases hat
  · exact h.knows j q' s' hat hs'

/-- It writes its state before: nobody else has it. -/
theorem PollWorld.Progressed.write (h : w.Progressed trace) (ho : w.Orderly) (hat : w.At i q)
    (hs : w.heap[q.state]? = some s) {s' : FolloweePollState} {pc : PollPc}
    (hknows : w.Knows s' pc)
    (hkept : ∀ id, s.remoteProgress = .pending id → s'.remoteProgress = .pending id ∨ w.Stored id)
    (hshown : ∀ l ∈ shown, ∀ r id, l = .recorded r id →
      r = q.state ∧ s'.remoteProgress = .pending id) :
    (w.write i q s' pc).Progressed (trace ++ shown) := by
  have hlt := (List.getElem?_eq_some_iff.mp hs).1
  have hself : (w.heap.set q.state s')[q.state]? = some s' := by
    rw [List.getElem?_set_self hlt]
  refine ⟨fun r id hin => ?_, fun j q' t hat' ht => ?_⟩
  · rcases List.mem_append.mp hin with hin | hin
    · rcases h.recorded r id hin with hstored | ⟨t, ht, hpending⟩
      · exact .inl hstored
      · by_cases hr : r = q.state
        · subst hr
          rw [hs] at ht
          cases ht
          rcases hkept id hpending with hp | hstored
          · exact .inr ⟨s', hself, hp⟩
          · exact .inl hstored
        · refine .inr ⟨t, ?_, hpending⟩
          show (w.heap.set q.state s')[r]? = some t
          rw [List.getElem?_set_ne fun heq => hr heq.symm]
          exact ht
    · obtain ⟨rfl, hp⟩ := hshown _ hin r id rfl
      exact .inr ⟨s', hself, hp⟩
  · have ht' : (w.heap.set q.state s')[q'.state]? = some t := ht
    unfold PollWorld.At PollWorld.write PollWorld.goto at hat'
    simp only [List.getElem?_set] at hat'
    split at hat'
    · split at hat'
      · cases hat'
        rw [hself] at ht'
        cases ht'
        exact hknows
      · cases hat'
    · next hne =>
      rw [List.getElem?_set_ne fun heq => hne (ho.alone i j q q' hat hat' heq)] at ht'
      exact h.knows j q' t hat' ht'

/-- The database has grown. -/
theorem PollWorld.Progressed.commit (h : w.Progressed trace) {env : Env} {db : Database} {op : Op}
    (hok : Db.step env w.db op = .ok db) : ({ w with db := db } : PollWorld).Progressed trace := by
  have hgrows : ∀ id, w.Stored id → ({ w with db := db } : PollWorld).Stored id := by
    intro id hid
    obtain ⟨e, he⟩ := Option.isSome_iff_exists.mp hid
    exact Option.isSome_iff_exists.mpr ⟨e, (step_heralded hok).headers id e he⟩
  refine ⟨fun r id hin => (h.recorded r id hin).imp_left (hgrows id), fun i q s hat hs => ?_⟩
  have hknows := h.knows i q s hat hs
  revert hknows
  cases q.pc with
  | completing localHead id => exact fun hk => ⟨hk.1, hgrows id hk.2⟩
  | _ => exact fun hk => hk

/-- The event of an envelope that was processed is stored. -/
theorem envelope_stored {env : Env} {db db' : Database} {v : VerifiedEvent} {now : Timestamp}
    {source : EventReceivedSource} (h : Db.step env db (.ingest [.envelope v now source]) = .ok db') :
    (db'.ev.events.get v.id).isSome = true := by
  have hdeliver : Ensures (Db.step env db (.ingest [.envelope v now source]))
      (fun db' => (db'.ev.events.get v.id).isSome = true) (fun _ => True) := by
    show Ensures ([Delivery.envelope v now source].foldlM (deliver env) db) _ _
    rw [List.foldlM_cons]
    have hone : Ensures (deliver env db (.envelope v now source))
        (fun db' => (db'.ev.events.get v.id).isSome = true) (fun _ => True) := by
      refine (processEventTx_inserts env db v now source).bind fun r hr => ?_
      obtain ⟨ins, hins, hrest⟩ := hr
      show (r.1.ev.events.get v.id).isSome = true
      rw [hrest.headers]
      cases (insertEventTx_effect db.ev v).of_ok hins with
      | present e he hreg ht ho =>
        show (ins.1.events.get v.id).isSome = true
        rw [ht, he]
        rfl
      | new hnew hreg wm isD dp rev mp hin ho =>
        show (ins.1.events.get v.id).isSome = true
        rw [hin.events, Table.get_insert_self]
        rfl
    exact hone.bind fun db' h => h
  exact hdeliver.of_ok h

/-- **The pending event is complete**: it was stored before the state is written. -/
theorem PollWorld.Progressed.completed {localHead id : ShortEventId} (h : w.Progressed trace) (ho : w.Orderly)
    (hat : w.At i q) (hs : w.heap[q.state]? = some s) (hpc : q.pc = .completing localHead id) :
    (w.write i q (s.completePendingEvent id).recordSuccess (.check localHead)).Progressed (trace ++ []) := by
  have hknows := h.knows i q s hat hs
  rw [hpc] at hknows
  obtain ⟨-, hstored⟩ := hknows
  refine h.write ho hat hs trivial (fun id' hid' => ?_) nofun
  by_cases heq : id' = id
  · exact .inr (heq ▸ hstored)
  · refine .inl ?_
    unfold FolloweePollState.recordSuccess FolloweePollState.completePendingEvent
    rw [if_neg]
    · exact hid'
    · rw [hid']
      exact fun hc => heq (RemoteProgress.pending.inj hc)

/-- **A new head is recorded**: nothing was pending, so nothing is forgotten. -/
theorem PollWorld.Progressed.records {localHead head : ShortEventId} (h : w.Progressed trace) (ho : w.Orderly)
    (hat : w.At i q) (hs : w.heap[q.state]? = some s) (hpc : q.pc = .recording localHead head) :
    (w.write i q (s.recordRemoteHead head) (.fetching localHead head)).Progressed
      (trace ++ [.recorded q.state head]) := by
  have hknows := h.knows i q s hat hs
  rw [hpc] at hknows
  have hnone : s.pendingEvent = none := hknows
  refine h.write ho hat hs rfl (fun id hid => ?_) fun l hl r id heq => ?_
  · unfold FolloweePollState.pendingEvent at hnone
    rw [hid] at hnone
    cases hnone
  · rw [List.mem_singleton.mp hl] at heq
    cases heq
    exact ⟨rfl, rfl⟩

/-- **What a poll does between two awaits.** It comes to another await at which it knows no more of its state than it
did, or learns it now; it writes its state, for one of three reasons; or it stores the event that it has fetched. -/
inductive PollWorld.Moves (env : Env) (w : PollWorld) (i : ℕ) (q : FolloweePoll) (s : FolloweePollState) :
    PollWorld → List PollLabel → Prop
  | goes {pc : PollPc} (knows : w.Knows s q.pc → w.Knows s pc) : w.Moves env i q s (w.goto i q pc) []
  | fails {pc : PollPc} (knows : ∀ s', w.Knows s' pc) :
      w.Moves env i q s (w.write i q (s.recordFailure w.now) pc) []
  | completes {localHead id : ShortEventId} (hpc : q.pc = .completing localHead id) :
      w.Moves env i q s (w.write i q (s.completePendingEvent id).recordSuccess (.check localHead)) []
  | records {localHead head : ShortEventId} (hpc : q.pc = .recording localHead head) :
      w.Moves env i q s (w.write i q (s.recordRemoteHead head) (.fetching localHead head))
        [.recorded q.state head]
  | stores {localHead id : ShortEventId} {event : VerifiedEvent} {now : Timestamp} {db : Database}
      (hpc : q.pc = .persisting localHead id event)
      (hok : Db.step env w.db (.ingest [.envelope event now (.pushed none none)]) = .ok db) :
      w.Moves env i q s ({ w with db := db }.goto i q (.completing localHead id)) []

/-- What a poll does without an answer from outside. -/
theorem PollWorld.proceed_moves {env : Env} (hstep : w.poll env i q s .proceed = some (w', shown)) :
    w.Moves env i q s w' shown := by
  simp only [PollWorld.poll] at hstep
  split at hstep
  · cases hstep
    refine .goes fun _ => ?_
    split
    · trivial
    · trivial
  · cases hstep
    exact .goes fun _ => trivial
  · cases hstep
    exact .fails fun _ => trivial
  · cases hstep
    exact .goes fun _ => trivial
  · -- the pending event is fetched again, or there is none
    split at hstep
    · next id hp =>
      cases hstep
      refine .goes fun _ => ?_
      unfold FolloweePollState.pendingEvent at hp
      split at hp
      · next id' hprogress =>
        cases hp
        exact hprogress
      · cases hp
      · cases hp
    · next hp =>
      cases hstep
      exact .goes fun _ => hp
  · next localHead id hpc =>
    cases hstep
    exact .goes fun hknows => by rwa [hpc] at hknows
  · next localHead id hpc =>
    cases hstep
    exact .completes hpc
  · next localHead hpc =>
    cases hstep
    exact .goes fun hknows => by rwa [hpc] at hknows
  · cases hstep
    exact .goes fun _ => trivial
  · next localHead head hpc =>
    cases hstep
    exact .records hpc
  · cases hstep
    exact .fails fun _ => trivial
  · cases hstep

/-- Whatever a poll is answered, it moves.  A head that the followee has reported is new to it, and an event that
was verified is the one it has asked for. -/
theorem PollWorld.poll_moves {env : Env} {input : PollInput}
    (hstep : w.poll env i q s input = some (w', shown)) : w.Moves env i q s w' shown := by
  cases input with
  | proceed => exact PollWorld.proceed_moves hstep
  | connected ok =>
    simp only [PollWorld.poll] at hstep
    split at hstep
    · cases hstep
      refine .goes fun _ => ?_
      split
      · trivial
      · trivial
    · cases hstep
  | answered head =>
    simp only [PollWorld.poll] at hstep
    split at hstep
    · cases hstep
      exact .goes fun _ => trivial
    · next localHead known head hpc =>
      cases hstep
      refine .goes fun hknows => ?_
      rw [hpc] at hknows
      split
      · trivial
      · exact hknows
    · cases hstep
  | fetched answer =>
    simp only [PollWorld.poll] at hstep
    split at hstep
    · cases hstep
      exact .goes fun _ => trivial
    · cases hstep
      exact .goes fun _ => trivial
    · next localHead id event hpc =>
      cases hstep
      refine .goes fun hknows => ?_
      rw [hpc] at hknows
      split
      · next hverified => exact ⟨hknows, hverified.2⟩
      · trivial
    · cases hstep
  | persisted now =>
    simp only [PollWorld.poll] at hstep
    split at hstep
    · next localHead id event hpc =>
      split at hstep
      · next db hok =>
        cases hstep
        exact .stores hpc hok
      · cases hstep
        exact .goes fun _ => trivial
    · cases hstep

/-- The event that was processed is stored. -/
theorem PollWorld.Progressed.stores {env : Env} {localHead id : ShortEventId} {event : VerifiedEvent}
    {now : Timestamp} {db : Database} (h : w.Progressed trace) (hat : w.At i q)
    (hs : w.heap[q.state]? = some s) (hpc : q.pc = .persisting localHead id event)
    (hok : Db.step env w.db (.ingest [.envelope event now (.pushed none none)]) = .ok db) :
    ({ w with db := db }.goto i q (.completing localHead id)).Progressed (trace ++ []) := by
  have hknows := h.knows i q s hat hs
  rw [hpc] at hknows
  obtain ⟨hpending, hid⟩ := hknows
  have hcommitted := h.commit hok
  refine PollWorld.Progressed.goto hcommitted hs ⟨hpending, ?_⟩
  have hstored := envelope_stored hok
  rw [hid] at hstored
  exact hstored

/-- **A poll that relies on what it has read keeps what was recorded.** Only one live poll has this state, so
nobody has written it in the meantime. -/
theorem PollWorld.Moves.progressed {env : Env} (hmove : w.Moves env i q s w' shown) (h : w.Progressed trace)
    (ho : w.Orderly) (hat : w.At i q) (hs : w.heap[q.state]? = some s) : w'.Progressed (trace ++ shown) := by
  cases hmove with
  | goes knows => exact h.goto hs (knows (h.knows i q s hat hs))
  | fails knows => exact h.write ho hat hs (knows _) (fun id hid => .inl hid) nofun
  | completes hpc => exact h.completed ho hat hs hpc
  | records hpc => exact h.records ho hat hs hpc
  | stores hpc hok => exact h.stores hat hs hpc hok

/-- A poll moves inside its own future and its own state. -/
theorem PollWorld.Moves.shape {env : Env} (hmove : w.Moves env i q s w' shown) :
    ∃ db heap pc, w' = { w with
      db := db
      heap := heap
      pollFutures := w.pollFutures.set i (some { q with pc := pc }) } ∧
      heap.length = w.heap.length ∧ ∀ l ∈ shown, ∃ r id, l = .recorded r id := by
  cases hmove with
  | goes => exact ⟨w.db, w.heap, _, rfl, rfl, nofun⟩
  | fails => exact ⟨w.db, _, _, rfl, List.length_set, nofun⟩
  | completes => exact ⟨w.db, _, _, rfl, List.length_set, nofun⟩
  | records => exact ⟨w.db, _, _, rfl, List.length_set, fun l hl => ⟨_, _, List.mem_singleton.mp hl⟩⟩
  | stores => exact ⟨_, w.heap, _, rfl, rfl, nofun⟩

/-- The scheduler does not see where a poll is. -/
theorem PollWorld.Settled.polled {heap : List FolloweePollState} (h : w.Settled trace)
    (db : Database) (pc : PollPc) (hat : w.At i q) (hlen : heap.length = w.heap.length)
    (hl : ∀ l ∈ shown, ∃ r id, l = .recorded r id) :
    ({ w with
      db := db
      heap := heap
      pollFutures := w.pollFutures.set i (some { q with pc := pc }) } : PollWorld).Settled
      (trace ++ shown) := by
  have ho := h.orderly
  have hold : ∀ {j : ℕ} {q' : FolloweePoll},
      (w.pollFutures.set i (some { q with pc := pc }))[j]? = some (some q') → ∃ q₀, w.At j q₀ ∧
        q₀.peer = q'.peer ∧ q₀.epoch = q'.epoch ∧ q₀.state = q'.state ∧
        q₀.cancelled = q'.cancelled := by
    intro j q' hj
    rw [List.getElem?_set] at hj
    split at hj
    · next heq =>
      split at hj
      · cases hj
        exact ⟨q, heq ▸ hat, rfl, rfl, rfl, rfl⟩
      · cases hj
    · exact ⟨q', hj, rfl, rfl, rfl, rfl⟩
  have hlabel : ∀ n p e r, PollLabel.started n p e r ∈ trace ++ shown → .started n p e r ∈ trace := by
    intro n p e r hin
    rcases List.mem_append.mp hin with hin | hin
    · exact hin
    · obtain ⟨_, _, heq⟩ := hl _ hin
      cases heq
  refine ⟨⟨ho.bounded, fun p act hp => ?_, fun j q' hj hlive => ?_, fun j q' hj hdead => ?_,
    fun j k q₁ q₂ hj hk heq => ?_, fun j q' hj => ?_, fun p r hr => ?_, ho.apart, ho.active,
    ho.pending, ho.upcoming⟩, h.served, ⟨fun n p e r hin => ?_, fun n p e m p' e' r hin hin' =>
      h.handed.same n p e m p' e' r (hlabel _ _ _ _ hin) (hlabel _ _ _ _ hin')⟩⟩
  · obtain ⟨q₀, hat₀, hpeer, hepoch, hlive, hstate⟩ := ho.live p act hp
    by_cases hidx : act.cancel = i
    · have hsame : q₀ = q := by
        unfold PollWorld.At at hat hat₀
        rw [hidx, hat] at hat₀
        exact (Option.some.inj (Option.some.inj hat₀)).symm
      subst hsame
      refine ⟨{ q₀ with pc := pc }, ?_, hpeer, hepoch, hlive, hstate⟩
      show (w.pollFutures.set i (some { q₀ with pc := pc }))[act.cancel]? = _
      rw [hidx, List.getElem?_set_self (List.getElem?_eq_some_iff.mp hat).1]
    · refine ⟨q₀, ?_, hpeer, hepoch, hlive, hstate⟩
      show (w.pollFutures.set i (some { q with pc := pc }))[act.cancel]? = _
      rw [List.getElem?_set_ne fun heq => hidx heq.symm]
      exact hat₀
  · obtain ⟨q₀, hat₀, hpeer, hepoch, -, hc⟩ := hold hj
    rw [← hpeer, ← hepoch]
    exact ho.listed j q₀ hat₀ (hc.trans hlive)
  · obtain ⟨q₀, hat₀, hpeer, hepoch, hstate, hc⟩ := hold hj
    rw [← hpeer, ← hepoch, ← hstate]
    exact ho.retired j q₀ hat₀ (hc.trans hdead)
  · obtain ⟨q₁', hat₁, -, -, hs₁, -⟩ := hold hj
    obtain ⟨q₂', hat₂, -, -, hs₂, -⟩ := hold hk
    exact ho.alone j k q₁' q₂' hat₁ hat₂ (by rw [hs₁, hs₂, heq])
  · obtain ⟨q₀, hat₀, -, -, hstate, -⟩ := hold hj
    show q'.state < heap.length
    rw [hlen, ← hstate]
    exact ho.used j q₀ hat₀
  · show r < heap.length ∧ _
    rw [hlen]
    exact ho.states p r hr
  · show r < heap.length ∧ _
    rw [hlen]
    exact h.handed.owner n p e r (hlabel _ _ _ _ hin)

end Progress

/-! ## 4. The task

The loop of the task: something completes or a snapshot arrives, and then polls are started. All parts of the
invariant are kept together (`PollWorld.Kept`), since the scheduler owes something only to a task that runs. -/

section Task

variable {env : Env} {w w' : PollWorld} {trace shown : List PollLabel}

/-- What holds in every state; the scheduler owes nothing to a task that has stopped, but what was recorded by then
is kept. -/
structure PollWorld.Kept (w : PollWorld) (trace : List PollLabel) : Prop where
  orderly : w.Orderly
  handed : w.Handed trace
  progressed : w.Progressed trace
  settled : w.running = true → w.Served ∧ w.Scheduled

/-- The rest of an iteration of the loop. -/
theorem PollWorld.Kept.iterated {w₀ : PollWorld} (hsettled : w₀.Settled trace)
    (ho : w.Orderly) (hp : w.Progressed trace)
    (hu : w.Untouched w₀.schedulePending.1) (hl : OnlyStarted w₀.schedulePending.2) :
    w₀.schedulePending.1.Kept (trace ++ w₀.schedulePending.2) := by
  obtain ⟨hrest, hdone⟩ := scheduleLoop_settled _ w₀ trace hsettled (Nat.le_refl _)
  exact ⟨hrest.orderly, hrest.handed, hp.untouched ho hu hl, fun _ => ⟨hrest.served, hdone⟩⟩

/-- A poll returns. -/
theorem PollWorld.Kept.completed {i : ℕ} {q : FolloweePoll} (h : w.Kept trace)
    (hrunning : w.running = true) (hat : w.At i q) (ok : Bool) :
    (w.completed i q ok).1.Kept (trace ++ (w.completed i q ok).2) := by
  obtain ⟨hu, hl⟩ := untouched_completed w i q ok
  cases ok with
  | true =>
    have hsettled : w.Settled trace := ⟨h.orderly, (h.settled hrunning).1, h.handed⟩
    exact PollWorld.Kept.iterated (hsettled.returned hat) h.orderly h.progressed hu hl
  | false =>
    have ho := h.orderly.without hat
    have hh := h.handed.without (i := i) (q := q)
    rw [completed_eq] at hu ⊢
    rw [if_neg (by simp)] at hu ⊢
    refine ⟨ho.elsewhere _ _ _, ?_, h.progressed.untouched h.orderly hu nofun, nofun⟩
    rw [List.append_nil]
    exact hh.elsewhere _ _ _

/-- A snapshot is shown. -/
theorem PollWorld.Kept.changed {new : Table RostraId FollowEpoch}
    {rest : List (Table RostraId FollowEpoch)} (ho : w.Orderly) (hh : w.Handed trace)
    (hp : w.Progressed trace) (hs : w.snapshots = new :: rest) :
    ({ w with snapshots := rest }.changed new).1.Kept
      (trace ++ ({ w with snapshots := rest }.changed new).2) := by
  have hbefore : w.Untouched { w with snapshots := rest } := .of_eq rfl rfl rfl
  obtain ⟨hu, hl⟩ := untouched_changed { w with snapshots := rest } new
  have hhanded : ({ w with snapshots := rest } : PollWorld).Handed trace := ⟨hh.owner, hh.same⟩
  exact PollWorld.Kept.iterated ⟨ho.reconcile hs, reconcile_served _ _, hhanded.reconcile⟩ ho hp
    (hbefore.trans hu) hl

/-- **Every step keeps it all**: an iteration of the scheduler, a step of a poll, a new snapshot, a commit by
somebody else. -/
theorem PollWorld.Kept.step {a : PollAct} (h : w.Kept trace)
    (hstep : w.step env a = some (w', shown)) : w'.Kept (trace ++ shown) := by
  have ho := h.orderly
  unfold PollWorld.step at hstep
  split at hstep
  · next hrunning =>
    cases a with
    | commit op =>
      dsimp only at hstep
      split at hstep
      · next db hok =>
        cases hstep
        rw [List.append_nil]
        exact ⟨ho.elsewhere _ _ _, h.handed.elsewhere _ _ _, h.progressed.commit hok, h.settled⟩
      · cases hstep
    | tick elapsed =>
      cases hstep
      rw [List.append_nil]
      exact ⟨ho.elsewhere _ _ _, h.handed.elsewhere _ _ _,
        ⟨h.progressed.recorded, h.progressed.knows⟩, h.settled⟩
    | poll i input =>
      dsimp only at hstep
      split at hstep
      · next q hat =>
        split at hstep
        · next s hs =>
          have hmove := PollWorld.poll_moves hstep
          have hprogressed := hmove.progressed h.progressed ho hat hs
          obtain ⟨db, heap, pc, rfl, hlen, hl⟩ := hmove.shape
          have hsettled : w.Settled trace := ⟨ho, (h.settled hrunning).1, h.handed⟩
          have hpolled := hsettled.polled db pc hat hlen hl
          exact ⟨hpolled.orderly, hpolled.handed, hprogressed, h.settled⟩
        · cases hstep
      · cases hstep
    | finished i =>
      dsimp only at hstep
      split at hstep
      · next q hat =>
        split at hstep
        · next ok _ =>
          have hdone := h.completed hrunning hat ok
          rw [Option.some.inj hstep] at hdone
          exact hdone
        · cases hstep
      · cases hstep
    | cut i =>
      dsimp only at hstep
      split at hstep
      · next q hat =>
        have hdone := h.completed hrunning hat true
        rw [Option.some.inj hstep] at hdone
        exact hdone
      · cases hstep
    | changed =>
      dsimp only at hstep
      split at hstep
      · cases hstep
      · next new rest hs =>
        have hdone := PollWorld.Kept.changed ho h.handed h.progressed hs
        rw [Option.some.inj hstep] at hdone
        exact hdone
    | leave =>
      cases hstep
      rw [List.append_nil]
      exact ⟨ho.elsewhere _ _ _, h.handed.elsewhere _ _ _,
        ⟨h.progressed.recorded, h.progressed.knows⟩, nofun⟩
  · cases hstep

/-- The task has found its first followees. -/
theorem kept_start (db : Database) (first : Table RostraId FollowEpoch)
    (snapshots : List (Table RostraId FollowEpoch)) (hreturn : NeverReturns (first :: snapshots)) :
    (pollStart db first snapshots).1.Kept (pollStart db first snapshots).2 := by
  have hnone : ∀ {V : Type} {p : RostraId} {v : V}, (∅ : Table RostraId V).get p ≠ some v :=
    fun h => by rw [Table.get_empty] at h; cases h
  have hempty : ∀ {i : ℕ} {q : FolloweePoll}, ([] : List (Option FolloweePoll))[i]? ≠ some (some q) :=
    fun h => by rw [List.getElem?_nil] at h; cases h
  have hbegin : ({ db := db, snapshots := first :: snapshots } : PollWorld).Orderly :=
    ⟨Nat.zero_le _, fun p act h => absurd h hnone, fun i q h => absurd h hempty,
      fun i q h => absurd h hempty, fun i j q q' h => absurd h hempty, fun i q h => absurd h hempty,
      fun p r h => absurd h hnone, fun p p' r h => absurd h hnone, fun p act h => absurd h hnone,
      fun p e h => absurd h hnone, ⟨fun p e h => absurd h hnone, hreturn⟩⟩
  have hhanded : ({ db := db, snapshots := first :: snapshots } : PollWorld).Handed [] :=
    ⟨nofun, nofun⟩
  have hprogressed : ({ db := db, snapshots := first :: snapshots } : PollWorld).Progressed [] :=
    ⟨nofun, nofun⟩
  have hs : ({ db := db, snapshots := first :: snapshots } : PollWorld).snapshots =
    first :: snapshots := rfl
  have hkept := PollWorld.Kept.changed hbegin hhanded hprogressed hs
  rw [List.nil_append] at hkept
  exact hkept

/-- **Followee polling keeps one poll per follow epoch and skips no reported head.**  The watch shows
`first` and then `snapshots`, in which no dropped epoch returns; polls are answered, end, time out and
are cancelled in any order. -/
theorem polls_keep_epochs (env : Env) (db : Database) (first : Table RostraId FollowEpoch)
    (snapshots : List (Table RostraId FollowEpoch)) (hreturn : NeverReturns (first :: snapshots))
    (acts : List PollAct) :
    -- at most 32 polls are active
    (pollRan env db first snapshots acts).1.activePeers.keys.card ≤ MAX_ACTIVE_POLLS ∧
    -- a poll that is not cancelled is the only one of its followee, and of the current epoch
    (∀ i q, (pollRan env db first snapshots acts).1.At i q → q.cancelled = false →
      (pollRan env db first snapshots acts).1.desiredPeers.get q.peer = some q.epoch ∧
      ∀ j q', (pollRan env db first snapshots acts).1.At j q' → q'.cancelled = false →
        q'.peer = q.peer → j = i) ∧
    -- exactly the followees are active or pending, with their epoch
    (∀ p act, (pollRan env db first snapshots acts).1.activePeers.get p = some act →
      (pollRan env db first snapshots acts).1.desiredPeers.get p = some act.epoch) ∧
    (∀ p e, (pollRan env db first snapshots acts).1.pendingPeers.get p = some e →
      (pollRan env db first snapshots acts).1.desiredPeers.get p = some e) ∧
    ((pollRan env db first snapshots acts).1.running = true → ∀ p e,
      (pollRan env db first snapshots acts).1.desiredPeers.get p = some e →
      (∃ act, (pollRan env db first snapshots acts).1.activePeers.get p = some act ∧ act.epoch = e) ∨
        (pollRan env db first snapshots acts).1.pendingPeers.get p = some e) ∧
    -- a state serves one epoch
    (∀ i p e j p' e' r, .started i p e r ∈ (pollRan env db first snapshots acts).2 →
      .started j p' e' r ∈ (pollRan env db first snapshots acts).2 → p = p' ∧ e = e') ∧
    -- a recorded head is stored or pending
    (∀ r id, .recorded r id ∈ (pollRan env db first snapshots acts).2 →
      (pollRan env db first snapshots acts).1.Stored id ∨
      ∃ s, (pollRan env db first snapshots acts).1.heap[r]? = some s ∧
        s.remoteProgress = .pending id) ∧
    -- and stored, if a poll waits with it
    (∀ i q localHead known, (pollRan env db first snapshots acts).1.At i q →
      q.pc = .waiting localHead known →
      .recorded q.state known ∈ (pollRan env db first snapshots acts).2 →
      (pollRan env db first snapshots acts).1.Stored known) := by
  have hstart := kept_start db first snapshots hreturn
  have hkept : (pollRan env db first snapshots acts).1.Kept (pollRan env db first snapshots acts).2 :=
    Machine.run_invariant (J := fun (w : PollWorld) trace => w.Kept ((pollStart db first snapshots).2 ++ trace))
      (by rw [List.append_nil]; exact hstart) acts fun a _ w trace w' shown h hstep => by
        rw [← List.append_assoc]
        exact h.step hstep
  have ho := hkept.orderly
  refine ⟨ho.bounded, fun i q hat hlive => ?_, ho.active, ho.pending, fun hrunning =>
    (hkept.settled hrunning).1, hkept.handed.same, hkept.progressed.recorded,
    fun i q localHead known hat hpc hin => ?_⟩
  · have hact := ho.listed i q hat hlive
    refine ⟨ho.active _ _ hact, fun j q' hat' hlive' hpeer => ?_⟩
    have hact' := ho.listed j q' hat' hlive'
    rw [hpeer, hact] at hact'
    exact (congrArg ActiveFolloweePoll.cancel (Option.some.inj hact')).symm
  · rcases hkept.progressed.recorded _ _ hin with hstored | ⟨s, hs, hpending⟩
    · exact hstored
    · -- a poll that waits has nothing pending
      have hknows := hkept.progressed.knows i q s hat hs
      rw [hpc] at hknows
      have hnone : s.pendingEvent = none := hknows
      unfold FolloweePollState.pendingEvent at hnone
      rw [hpending] at hnone
      cases hnone

end Task

end Polls

section Sample

attribute [local instance] Primitives.reference

/-- One followee, of a given epoch. -/
def sampleFollow (epoch : FollowEpoch) : Table RostraId FollowEpoch :=
  (∅ : Table RostraId FollowEpoch).insert (toLex (1, 1)) epoch

/-- A followee reports a head, and is followed anew before the event is fetched. -/
def samplePolls : List PollAct :=
  [.poll 0 .proceed, .poll 0 (.connected true), .poll 0 .proceed, .poll 0 .proceed, .poll 0 .proceed,
    .poll 0 (.answered (some 3)), .poll 0 .proceed, .changed, .cut 0]

theorem polls_keep_epochs_samplePolls :
    .recorded 0 3 ∈ (pollRan sampleEnv {} (sampleFollow 5) [sampleFollow 7] samplePolls).2 ∧
    ((pollRan sampleEnv {} (sampleFollow 5) [sampleFollow 7] samplePolls).1.Stored 3 ∨
      ∃ s, (pollRan sampleEnv {} (sampleFollow 5) [sampleFollow 7] samplePolls).1.heap[0]? = some s ∧
        s.remoteProgress = .pending 3) := by
  have hreturn : NeverReturns [sampleFollow 5, sampleFollow 7] :=
    ⟨nofun, trivial⟩
  have hin : PollLabel.recorded 0 3 ∈
      (pollRan sampleEnv {} (sampleFollow 5) [sampleFollow 7] samplePolls).2 := by
    decide +kernel
  obtain ⟨-, -, -, -, -, -, hrecorded, -⟩ :=
    polls_keep_epochs sampleEnv {} (sampleFollow 5) [sampleFollow 7] hreturn samplePolls
  exact ⟨hin, hrecorded 0 3 hin⟩

end Sample

end Rostra.Client
