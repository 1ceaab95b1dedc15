/-
# Scheduling of follower polls

* `Waiting` is what every call of `schedule_pending` finds: a desired peer is pending or polled.  The loop keeps it,
  and stops only when nobody is pending or no slot is left (`scheduleLoop_spec`).
* `followers_scheduled` is the same for whole runs.
* `never_polled` is what follows from the order of the pending peers.

Nothing is assumed about when a poll ends or with what, and the followers may change at any time. What is not
promised is that everybody gets his turn: the pending peers are taken from the front of an ordered set, into which
a peer comes back as soon as its poll is over. With more than 32 desired peers the last of them can wait for ever,
and `never_polled` is a run in which he does.
-/
import Rostra.Client.PollFollowers

namespace Rostra.PollFollowers

open Rostra

/-! ## 1. The loop

The loop gives out slots until there are none or nobody is left. Desired peers are pending or polled when it
starts, and they are when it ends. -/

/-- Every desired peer has its place. -/
structure Waiting (w : FollowerPolls) : Prop where
  slots : w.activePeers.card ≤ MAX_ACTIVE_POLLS
  desired : w.pendingPeers ⊆ w.desiredPeers
  disjoint : Disjoint w.pendingPeers w.activePeers
  placed : w.desiredPeers ⊆ w.pendingPeers ∪ w.activePeers

/-- What the loop does: it starts polls in the order of the peers until there is no slot or no peer. -/
structure Filled (w w' : FollowerPolls) (started : List RostraId) : Prop where
  waiting : Waiting w'
  full : w'.pendingPeers = ∅ ∨ w'.activePeers.card = MAX_ACTIVE_POLLS
  same : w'.selfId = w.selfId ∧ w'.desiredPeers = w.desiredPeers ∧ w'.running = w.running
  grown : w.activePeers ⊆ w'.activePeers
  first : ∀ p ∈ started, p ∈ w'.desiredPeers ∧ p ∈ w'.activePeers ∧
    ∀ q ∈ w'.desiredPeers, q < p → q ∈ w'.activePeers

/-- The first pending peer gets a slot. -/
theorem Waiting.start {w : FollowerPolls} (h : Waiting w) (hslot : w.activePeers.card < MAX_ACTIVE_POLLS)
    {peer : RostraId} (hpeer : peer ∈ w.pendingPeers) : Waiting { w with
      pendingPeers := w.pendingPeers.erase peer
      activePeers := insert peer w.activePeers } := by
  have hidle : peer ∉ w.activePeers := Finset.disjoint_left.mp h.disjoint hpeer
  refine ⟨?_, fun q hq => h.desired (Finset.mem_of_mem_erase hq), ?_, fun q hq => ?_⟩
  · show (insert peer w.activePeers).card ≤ _
    rw [Finset.card_insert_of_notMem hidle]
    exact hslot
  · refine Finset.disjoint_left.mpr fun q hq hactive => ?_
    obtain ⟨hne, hpending⟩ := Finset.mem_erase.mp hq
    rcases Finset.mem_insert.mp hactive with heq | hactive
    · exact hne heq
    · exact Finset.disjoint_left.mp h.disjoint hpending hactive
  · show q ∈ w.pendingPeers.erase peer ∪ insert peer w.activePeers
    have hplaced := h.placed hq
    simp only [Finset.mem_union, Finset.mem_erase, Finset.mem_insert] at hplaced ⊢
    by_cases heq : q = peer
    · exact .inr (.inl heq)
    · rcases hplaced with hpending | hactive
      · exact .inl ⟨heq, hpending⟩
      · exact .inr (.inr hactive)

theorem scheduleLoop_spec (turns : ℕ) : ∀ w : FollowerPolls, Waiting w → w.pendingPeers.card ≤ turns →
    Filled w (w.scheduleLoop turns).1 (w.scheduleLoop turns).2 := by
  induction turns with
  | zero =>
    intro w h hturns
    exact ⟨h, .inl (Finset.card_eq_zero.mp (Nat.le_zero.mp hturns)), ⟨rfl, rfl, rfl⟩, subset_rfl,
      fun p hp => absurd hp List.not_mem_nil⟩
  | succ turns ih =>
    intro w h hturns
    have hstop : (w.pendingPeers = ∅ ∨ w.activePeers.card = MAX_ACTIVE_POLLS) → Filled w w [] := fun hfull =>
      ⟨h, hfull, ⟨rfl, rfl, rfl⟩, subset_rfl, fun p hp => absurd hp List.not_mem_nil⟩
    unfold FollowerPolls.scheduleLoop
    split
    · next hslot =>
      cases hleast : Table.least w.pendingPeers with
      | none => exact hstop (.inl (Table.least_none hleast))
      | some peer =>
        have hpeer : peer ∈ w.pendingPeers := Table.least_mem hleast
        have hidle : peer ∉ w.activePeers := Finset.disjoint_left.mp h.disjoint hpeer
        have hrest := ih _ (h.start hslot hpeer) (by
          show (w.pendingPeers.erase peer).card ≤ turns
          rw [Finset.card_erase_of_mem hpeer]
          omega)
        dsimp only
        rw [if_neg hidle]
        refine ⟨hrest.waiting, hrest.full, hrest.same, fun q hq => hrest.grown (Finset.mem_insert_of_mem hq),
          fun p hp => ?_⟩
        rcases List.mem_cons.mp hp with rfl | hp
        · -- whoever comes before the first pending peer is polled already
          have hdesired : p ∈ w.desiredPeers := h.desired hpeer
          refine ⟨hrest.same.2.1.symm.subset hdesired, hrest.grown (Finset.mem_insert_self _ _), fun q hq hlt => ?_⟩
          rcases Finset.mem_union.mp (h.placed (hrest.same.2.1.subset hq)) with hpending | hactive
          · exact absurd (Table.least_le hleast hpending) (not_le.mpr hlt)
          · exact hrest.grown (Finset.mem_insert_of_mem hactive)
        · exact hrest.first p hp
    · next hslot => exact hstop (.inr (le_antisymm h.slots (not_lt.mp hslot)))

/-! ## 2. Runs

Slots come back in any order, and the followers may change at any time. A peer that is no longer desired keeps its
slot until its poll is over. -/

/-- As long as it runs, every desired peer has its place and no slot is free for a pending one. -/
structure Scheduled (w : FollowerPolls) : Prop where
  slots : w.activePeers.card ≤ MAX_ACTIVE_POLLS
  waiting : w.running = true → Waiting w ∧ (w.pendingPeers = ∅ ∨ w.activePeers.card = MAX_ACTIVE_POLLS)

theorem Waiting.filled {w w' : FollowerPolls} {started : List RostraId} (h : Waiting w)
    (hschedule : w.schedulePending = (w', started)) : Filled w w' started := by
  have hloop : Filled w w.schedulePending.1 w.schedulePending.2 := scheduleLoop_spec _ w h le_rfl
  rw [hschedule] at hloop
  exact hloop

theorem Waiting.update {w : FollowerPolls} (h : Waiting w) (followers : Finset RostraId) :
    Waiting (w.updateDesiredFollowers followers) := by
  refine ⟨h.slots, fun q hq => ?_, Finset.disjoint_left.mpr fun q hq hactive => ?_, fun q hq => ?_⟩
  · rcases Finset.mem_union.mp hq with hq | hq
    · exact (Finset.mem_filter.mp hq).2
    · exact (Finset.mem_sdiff.mp hq).1
  · rcases Finset.mem_union.mp hq with hq | hq
    · exact Finset.disjoint_left.mp h.disjoint (Finset.mem_filter.mp hq).1 hactive
    · exact (Finset.mem_sdiff.mp hq).2 hactive
  · by_cases hactive : q ∈ w.activePeers
    · exact Finset.mem_union_right _ hactive
    · exact Finset.mem_union_left _ (Finset.mem_union_right _ (Finset.mem_sdiff.mpr ⟨hq, hactive⟩))

/-- A poll is over, and its peer is pending again if somebody wants it. -/
theorem Waiting.finish {w : FollowerPolls} (h : Waiting w) (peer : RostraId) :
    Waiting (if peer ∈ w.desiredPeers then { w with
        activePeers := w.activePeers.erase peer
        pendingPeers := insert peer w.pendingPeers }
      else { w with activePeers := w.activePeers.erase peer }) := by
  have hslots : (w.activePeers.erase peer).card ≤ MAX_ACTIVE_POLLS :=
    (Finset.card_le_card (Finset.erase_subset _ _)).trans h.slots
  have hdisjoint : Disjoint w.pendingPeers (w.activePeers.erase peer) :=
    h.disjoint.mono_right (Finset.erase_subset _ _)
  split
  · next hdesired =>
    refine ⟨hslots, Finset.insert_subset hdesired h.desired, ?_, fun q hq => ?_⟩
    · exact Finset.disjoint_insert_left.mpr ⟨Finset.notMem_erase _ _, hdisjoint⟩
    · show q ∈ insert peer w.pendingPeers ∪ w.activePeers.erase peer
      have hplaced := h.placed hq
      simp only [Finset.mem_union, Finset.mem_erase, Finset.mem_insert] at hplaced ⊢
      by_cases heq : q = peer
      · exact .inl (.inl heq)
      · rcases hplaced with hpending | hactive
        · exact .inl (.inr hpending)
        · exact .inr ⟨heq, hactive⟩
  · next hdesired =>
    refine ⟨hslots, h.desired, hdisjoint, fun q hq => ?_⟩
    show q ∈ w.pendingPeers ∪ w.activePeers.erase peer
    rcases Finset.mem_union.mp (h.placed hq) with hpending | hactive
    · exact Finset.mem_union_left _ hpending
    · exact Finset.mem_union_right _ (Finset.mem_erase.mpr ⟨fun heq => hdesired (heq ▸ hq), hactive⟩)

/-- The desired peers after an act: those that the task has read, and the account itself. -/
def PollAct.desired (selfId : RostraId) (desired : Finset RostraId) : PollAct → Finset RostraId
  | .changed followers => insert selfId followers
  | .finished _ _ | .leave => desired

/-- **One step**: it ends the loop, or it fills the slots of a state in which everybody has a place. -/
theorem step_cases {w w' : FollowerPolls} {started : List RostraId} {act : PollAct}
    (h : Scheduled w) (hstep : w.step act = some (w', started)) :
    (w'.running = false ∧ w'.activePeers ⊆ w.activePeers ∧
        (w'.selfId = w.selfId ∧ w'.desiredPeers = w.desiredPeers) ∧ started = []) ∨
      ∃ v : FollowerPolls, Filled v w' started ∧ v.selfId = w.selfId ∧
        v.desiredPeers = act.desired w.selfId w.desiredPeers := by
  unfold FollowerPolls.step at hstep
  split at hstep
  · next hrunning =>
    have hw : Waiting w := (h.waiting hrunning).1
    cases act with
    | finished peer ok =>
      dsimp only at hstep
      split at hstep
      · split at hstep
        · refine .inr ⟨_, (hw.finish peer).filled (Option.some.inj hstep), ?_, ?_⟩
          · split <;> rfl
          · split <;> rfl
        · cases hstep
          exact .inl ⟨rfl, Finset.erase_subset _ _, ⟨rfl, rfl⟩, rfl⟩
      · cases hstep
    | changed followers =>
      exact .inr ⟨_, (hw.update followers).filled (Option.some.inj hstep), rfl, rfl⟩
    | leave =>
      cases hstep
      exact .inl ⟨rfl, subset_rfl, ⟨rfl, rfl⟩, rfl⟩
  · cases hstep

theorem Scheduled.step {w w' : FollowerPolls} {started : List RostraId} {act : PollAct} (h : Scheduled w)
    (hstep : w.step act = some (w', started)) : Scheduled w' := by
  rcases step_cases h hstep with ⟨hstopped, hactive, -, -⟩ | ⟨v, hfilled, -, -⟩
  · exact ⟨(Finset.card_le_card hactive).trans h.slots, fun hrunning => by rw [hstopped] at hrunning; cases hrunning⟩
  · exact ⟨hfilled.waiting.slots, fun _ => ⟨hfilled.waiting, hfilled.full⟩⟩

theorem scheduled_start (selfId : RostraId) : Scheduled { selfId := selfId } :=
  ⟨Nat.zero_le _, fun _ => ⟨⟨Nat.zero_le _, subset_rfl, Finset.disjoint_empty_left _, Finset.empty_subset _⟩, .inl rfl⟩⟩

theorem followersPolled_scheduled (selfId : RostraId) (acts : List PollAct) :
    Scheduled (followersPolled selfId acts).1 :=
  Machine.run_invariant (J := fun w _ => Scheduled w) (scheduled_start selfId) acts
    fun _ _ _ _ _ _ h hstep => h.step hstep

/-- The followers that the task has read last, and the account itself. -/
def desiredAfter (selfId : RostraId) (acts : List PollAct) : Finset RostraId :=
  acts.foldl (PollAct.desired selfId) ∅

/-- A task that has stopped takes no step. -/
theorem running_of_step {w : FollowerPolls} {act : PollAct} {r : FollowerPolls × List RostraId}
    (h : w.step act = some r) : w.running = true := by
  unfold FollowerPolls.step at h
  split at h
  · assumption
  · cases h

/-- A task that runs refuses nothing but the end of a poll that there is not. -/
theorem desired_of_refused {w : FollowerPolls} {act : PollAct} (hrunning : w.running = true)
    (h : w.step act = none) (selfId : RostraId) (desired : Finset RostraId) :
    act.desired selfId desired = desired := by
  unfold FollowerPolls.step at h
  rw [if_pos hrunning] at h
  cases act with
  | finished peer ok => rfl
  | changed followers => cases h
  | leave => cases h

/-- **What is desired is what was read last**, as long as the task runs. -/
theorem followersPolled_desired (selfId : RostraId) (acts : List PollAct) :
    (followersPolled selfId acts).1.selfId = selfId ∧ ((followersPolled selfId acts).1.running = true →
      (followersPolled selfId acts).1.desiredPeers = desiredAfter selfId acts) := by
  induction acts using List.reverseRecOn with
  | nil => exact ⟨rfl, fun _ => rfl⟩
  | append_singleton acts act ih =>
    obtain ⟨hself, hdesired⟩ := ih
    have hs := followersPolled_scheduled selfId acts
    have hrun : followersPolled selfId (acts ++ [act]) =
        Machine.advance FollowerPolls.step (followersPolled selfId acts) act := Machine.run_snoc _ _ _
    have hlast : desiredAfter selfId (acts ++ [act]) = act.desired selfId (desiredAfter selfId acts) := by
      simp [desiredAfter]
    rw [hrun, hlast]
    unfold Machine.advance
    generalize followersPolled selfId acts = c at hself hdesired hs ⊢
    cases hstep : c.1.step act with
    | none =>
      exact ⟨hself, fun hrunning =>
        (hdesired hrunning).trans (desired_of_refused hrunning hstep selfId _).symm⟩
    | some r =>
      rcases step_cases hs hstep with ⟨hstopped, -, ⟨hsame, -⟩, -⟩ | ⟨v, hfilled, hv, hread⟩
      · refine ⟨hsame.trans hself, fun h => ?_⟩
        rw [hstopped] at h
        cases h
      · refine ⟨hfilled.same.1.trans (hv.trans hself), fun _ => ?_⟩
        rw [hself, hdesired (running_of_step hstep)] at hread
        exact hfilled.same.2.1.trans hread

/-- **No slot is wasted, and no follower is forgotten.**  In every state of every run there are at most 32 polls;
as long as the task runs, the desired peers are the account itself and the followers that it read last, every one of
them is polled or pending and never both, nobody else is pending, and if anybody is pending, all 32 slots are
taken. -/
theorem followers_scheduled (selfId : RostraId) (acts : List PollAct) :
    (followersPolled selfId acts).1.activePeers.card ≤ MAX_ACTIVE_POLLS ∧
      ((followersPolled selfId acts).1.running = true →
        (followersPolled selfId acts).1.desiredPeers = desiredAfter selfId acts ∧
        Disjoint (followersPolled selfId acts).1.pendingPeers (followersPolled selfId acts).1.activePeers ∧
        (followersPolled selfId acts).1.pendingPeers ⊆ (followersPolled selfId acts).1.desiredPeers ∧
        (followersPolled selfId acts).1.desiredPeers ⊆
          (followersPolled selfId acts).1.pendingPeers ∪ (followersPolled selfId acts).1.activePeers ∧
        ((followersPolled selfId acts).1.pendingPeers ≠ ∅ →
          (followersPolled selfId acts).1.activePeers.card = MAX_ACTIVE_POLLS)) := by
  have h := followersPolled_scheduled selfId acts
  refine ⟨h.slots, fun hrunning => ⟨(followersPolled_desired selfId acts).2 hrunning, ?_⟩⟩
  obtain ⟨hwaiting, hfull⟩ := h.waiting hrunning
  exact ⟨hwaiting.disjoint, hwaiting.desired, hwaiting.placed, fun hpending => hfull.resolve_left hpending⟩

/-! ## 3. Order

The loop takes the least pending peer. So one that always has 32 before it is not taken. -/

/-- At least 32 desired peers come before `p`. -/
def Crowded (p : RostraId) (desired : Finset RostraId) : Prop := MAX_ACTIVE_POLLS ≤ (desired.filter (· < p)).card

/-- A poll is started only if there is a slot that no desired peer before it needs. -/
theorem Filled.not_started {w w' : FollowerPolls} {started : List RostraId} (h : Filled w w' started) {p : RostraId}
    (hcrowded : Crowded p w'.desiredPeers) : p ∉ started := by
  intro hp
  obtain ⟨-, hactive, hbefore⟩ := h.first p hp
  -- `p` and all that come before it would be polled at once
  have hsub : insert p (w'.desiredPeers.filter (· < p)) ⊆ w'.activePeers := by
    refine Finset.insert_subset hactive fun q hq => ?_
    obtain ⟨hdesired, hlt⟩ := Finset.mem_filter.mp hq
    exact hbefore q hdesired hlt
  have hnot : p ∉ w'.desiredPeers.filter (· < p) := fun hmem => lt_irrefl p (Finset.mem_filter.mp hmem).2
  have hcard := (Finset.card_le_card hsub).trans h.waiting.slots
  rw [Finset.card_insert_of_notMem hnot] at hcard
  unfold Crowded at hcrowded
  omega

/-- **A follower that 32 others come before is never polled**, however long the task runs and however its polls
end: as long as the followers that are read have 32 smaller ids among them and the account itself, each slot that
comes free goes to one of those. -/
theorem never_polled (selfId p : RostraId) (acts : List PollAct)
    (hcrowded : ∀ followers, .changed followers ∈ acts → Crowded p (insert selfId followers)) :
    p ∉ (followersPolled selfId acts).2 := by
  refine (Machine.run_invariant (J := fun w started => Scheduled w ∧ w.selfId = selfId ∧
    (w.desiredPeers = ∅ ∨ Crowded p w.desiredPeers) ∧ p ∉ started)
    ⟨scheduled_start selfId, rfl, .inl rfl, List.not_mem_nil⟩ acts ?_).2.2.2
  rintro act hact w trace w' started ⟨hs, hself, hdesired, hnot⟩ hstep
  refine ⟨hs.step hstep, ?_⟩
  rcases step_cases hs hstep with ⟨-, -, hsame, rfl⟩ | ⟨v, hfilled, hv, hread⟩
  · rw [List.append_nil, hsame.1, hsame.2]
    exact ⟨hself, hdesired, hnot⟩
  · obtain ⟨hid, hkept, -⟩ := hfilled.same
    have hdesired' : w'.desiredPeers = ∅ ∨ Crowded p w'.desiredPeers := by
      rw [hkept, hread, hself]
      cases act with
      | finished peer ok => exact hdesired
      | changed followers => exact .inr (hcrowded followers hact)
      | leave => exact hdesired
    refine ⟨hid.trans (hv.trans hself), hdesired', fun hp => ?_⟩
    rcases List.mem_append.mp hp with hp | hp
    · exact hnot hp
    · rcases hdesired' with hnobody | hcrowd
      · exact absurd (hnobody ▸ (hfilled.first p hp).1) (Finset.notMem_empty p)
      · exact hfilled.not_started hcrowd hp

/-! ## 4. Forty followers

There are more of them than slots. -/

section Sample

def sampleFollowers : Finset RostraId := (Finset.range 40).image fun n => toLex (1, n)

/-- The last of forty followers, while the polls of the others come and go. -/
theorem never_polled_sampleFollowers :
    toLex (1, 39) ∉ (followersPolled (toLex (9, 9)) [.changed sampleFollowers, .finished (toLex (1, 5)) true]).2 :=
  never_polled _ _ _ fun followers hread => by
    have hsame : followers = sampleFollowers := by simpa using hread
    subst hsame
    unfold Crowded
    decide +kernel

end Sample

end Rostra.PollFollowers
