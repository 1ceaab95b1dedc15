/-
# No missing event is stranded

The rows of `events_missing` are durable and the notifications about them are not.  What has to be
shown is that the task never sleeps without a deadline while a row is waiting that nothing will wake
it for.

* Section 1: a row is *heard of* while its author is queued, the channel is marked, or a hook is still
  to run (`Heard`); otherwise the task itself is on its way to it (`Attended`).  `Minded` says that one
  of the two holds of every row, and every step keeps it.
* Section 2: a pass over the table, with rows that come and go between its pages.  It visits authors
  in ascending order and never passes one that has rows all the time (`PassKept`).
* Section 3: it comes to an end, because there are finitely many accounts (`passWork`).

Two things can go wrong with such a task: it sleeps while there is work, or it works without getting on. Section 1
is about the first, sections 2 and 3 are about the second.
-/
import Rostra.Client.MissingEventFetcher
import Rostra.Proofs.Signals
import Rostra.Proofs.DedupChan

namespace Rostra.Client

open Rostra Db DedupChan Outcome

/-! ## 1. Waking up

A commit adds rows and then runs a hook that sends the author into the channel. The channel is bounded and drops
what does not fit, but it remembers that it did, so a row is heard of even if its author is not in the queue. -/

theorem mem_missingAuthors {t : EventTables} {a : RostraId} :
    a ∈ missingAuthors t ↔ ∃ id, (t.eventsMissing.get (a, id)).isSome := by
  unfold missingAuthors
  rw [Finset.mem_image]
  constructor
  · rintro ⟨⟨b, id⟩, hk, rfl⟩
    obtain ⟨row, hrow⟩ := Table.mem_keys.mp hk
    exact ⟨id, by rw [hrow]; rfl⟩
  · rintro ⟨id, hid⟩
    obtain ⟨row, hrow⟩ := Option.isSome_iff_exists.mp hid
    exact ⟨(a, id), Table.mem_keys_of_get hrow, rfl⟩

/-- Something will wake the task for this author. -/
def MissingWorld.Heard (w : MissingWorld) (a : RostraId) : Prop :=
  a ∈ w.chan.inner.queue ∨ w.chan.inner.lagged = true ∨ a ∈ w.hooks ∨ w.chan.sending = some a

/-- The task will look at the author, or at its clock, before it sleeps without a deadline. -/
def MissingWorld.Attended (w : MissingWorld) (a : RostraId) : Prop :=
  w.retry.deadline.isSome = true ∨
    match w.pc with
    | .waiting => False
    | .notified author => a = author
    | .fetching _ had => had = true
    | _ => True

/-- **The invariant of the task.** Every author with a missing event is heard of, through the channel or a hook, or
attended to by the task: a scan is due or will come to it. -/
structure MissingWorld.Minded (w : MissingWorld) : Prop where
  lossless : ∃ trace, w.chan.Lossless trace
  listening : w.chan.isClosed = false
  rows : ∀ a ∈ missingAuthors w.db.ev, w.Heard a ∨ w.Attended a
  delay : w.retry.delay ≤ MAX_RETRY_DELAY

theorem MissingRetryPolicy.reconcile_deadline (p : MissingRetryPolicy)
    (trigger : MissingReconcileTrigger) (now : Instant) :
    (p.reconcile trigger now .workObserved).deadline.isSome = true := by
  unfold reconcile
  dsimp only
  split
  · rfl
  · next h =>
    cases hd : p.deadline with
    | none => exact absurd (.inl (by rw [hd]; rfl)) h
    | some d => rfl

theorem initial_le_max : INITIAL_RETRY_DELAY ≤ MAX_RETRY_DELAY := by decide

theorem MissingRetryPolicy.reconcile_delay (p : MissingRetryPolicy)
    (trigger : MissingReconcileTrigger) (now : Instant) (outcome : MissingReconcileOutcome)
    (h : p.delay ≤ MAX_RETRY_DELAY) : (p.reconcile trigger now outcome).delay ≤ MAX_RETRY_DELAY := by
  cases outcome with
  | empty => exact initial_le_max
  | workObserved =>
    unfold reconcile
    dsimp only
    split
    · exact Nat.min_le_right _ _
    · exact h

theorem MissingRetryPolicy.observe_deadline (p : MissingRetryPolicy) (now : Instant) :
    (p.observeNotificationWork now).deadline.isSome = true := by
  unfold observeNotificationWork
  split
  · rfl
  · next h => simpa [Option.isNone_iff_eq_none, Option.isSome_iff_ne_none] using h

theorem MissingRetryPolicy.observe_delay (p : MissingRetryPolicy) (now : Instant)
    (h : p.delay ≤ MAX_RETRY_DELAY) : (p.observeNotificationWork now).delay ≤ MAX_RETRY_DELAY := by
  unfold observeNotificationWork
  split
  · exact initial_le_max
  · exact h

/-! ### The steps of the channel that the world takes

The channel is that of `DedupChan`, of which the world takes single steps. -/

section Channel

variable {c c' : Channel RostraId} {shown : List (Shown RostraId)}

/-- A send that somebody listens to is on its way. -/
theorem sendStart_heard (hs : c.Sound) (hlisten : c.isClosed = false) {a : RostraId}
    (h : c.step (.sendStart a) = some (c', shown)) :
    c'.inner = c.inner ∧ c'.receivers = c.receivers ∧
      (a ∈ c'.inner.queue ∨ c'.sending = some a) ∧ c.sending = none := by
  simp only [Channel.step, Option.ite_none_right_eq_some, Option.some.injEq] at h
  obtain ⟨hfree, h⟩ := h
  unfold Channel.sendStart at h
  simp only [hlisten, Bool.false_eq_true, if_false] at h
  split at h
  · next hv =>
    cases h
    rw [← hs.set, List.mem_toFinset] at hv
    exact ⟨rfl, rfl, .inl hv, hfree⟩
  · cases h
    exact ⟨rfl, rfl, .inr rfl, hfree⟩

/-- It ends in the queue, or with the channel marked. -/
theorem sendFinish_heard (h : c.step .sendFinish = some (c', shown)) :
    c'.receivers = c.receivers ∧ (c.inner.lagged = true → c'.inner.lagged = true) ∧
      (∀ a ∈ c.inner.queue, a ∈ c'.inner.queue) ∧
      ∀ a, c.sending = some a → a ∈ c'.inner.queue ∨ c'.inner.lagged = true := by
  simp only [Channel.step, Option.map_eq_some_iff] at h
  obtain ⟨v, hv, h⟩ := h
  unfold Channel.sendFinish at h
  split at h
  · cases h
    exact ⟨rfl, fun _ => rfl, fun _ ha => ha, fun _ _ => .inr rfl⟩
  · cases h
    refine ⟨rfl, fun hl => hl, fun a ha => List.mem_append_left _ ha, fun a ha => .inl ?_⟩
    rw [hv] at ha
    cases ha
    simp

/-- A receiver that is there keeps the channel open. -/
theorem isClosed_move {r : ℕ} {old rcv : Receiver} (hr : c.receivers[r]? = some old)
    (hphase : rcv.phase ≠ .dropped) : (c.move r rcv).isClosed = false := by
  have hlt := (List.getElem?_eq_some_iff.mp hr).1
  have hmem : rcv ∈ (c.move r rcv).receivers := List.mem_set hlt rcv
  refine Bool.eq_false_iff.mpr fun hall => hphase ?_
  simpa using List.all_eq_true.mp hall rcv hmem

/-- What a poll takes from the channel, the task has in hand. -/
theorem poll_heard (hs : c.Sound) {act : ChannelAct RostraId} {r : ℕ}
    (hact : act = .recv r ∨ act = .look r ∨ act = .changed r)
    (h : c.step act = some (c', shown)) :
    c'.isClosed = false ∧ c'.sending = c.sending ∧
      ((c'.inner = c.inner ∧ (MissingPc.woken shown = .waiting ∨ MissingPc.woken shown = .stopped)) ∨
        (MissingPc.woken shown = .reconcile .lag ∧ c'.inner.queue = c.inner.queue) ∨
        ∃ a, MissingPc.woken shown = .notified a ∧ c'.inner.lagged = c.inner.lagged ∧
          ∀ b ∈ c.inner.queue, b = a ∨ b ∈ c'.inner.queue) := by
  rcases hact with rfl | rfl | rfl
  · simp only [Channel.step, Option.bind_eq_bind, Option.bind_eq_some_iff,
      Option.ite_none_right_eq_some, Option.some.injEq] at h
    obtain ⟨rcv, hr, -, h⟩ := h
    cases h
    exact ⟨isClosed_move hr (by simp), rfl, .inl ⟨rfl, .inl rfl⟩⟩
  · simp only [Channel.step, Option.bind_eq_bind, Option.bind_eq_some_iff,
      Option.ite_none_right_eq_some, Option.some.injEq] at h
    obtain ⟨rcv, hr, -, h⟩ := h
    rcases hs.look_cases r with ⟨hq, hl, hlook⟩ | ⟨hq, hl, hlook⟩ | ⟨v, rest, hq, hlook⟩
    · rw [hlook] at h
      cases h
      exact ⟨isClosed_move (c := c) hr (by simp), rfl, .inr (.inl ⟨rfl, rfl⟩)⟩
    · rw [hlook] at h
      cases h
      exact ⟨isClosed_move (c := c) hr (by simp), rfl, .inl ⟨rfl, .inl rfl⟩⟩
    · rw [hlook] at h
      cases h
      refine ⟨isClosed_move (c := c) hr (by simp), rfl, .inr (.inr ⟨v, rfl, rfl, fun b hb => ?_⟩)⟩
      rw [hq] at hb
      exact List.mem_cons.mp hb
  · simp only [Channel.step, Option.bind_eq_bind, Option.bind_eq_some_iff,
      Option.ite_none_right_eq_some] at h
    obtain ⟨rcv, hr, -, h⟩ := h
    split at h
    · cases h
      exact ⟨isClosed_move hr (by simp), rfl, .inl ⟨rfl, .inl rfl⟩⟩
    · split at h
      · cases h
      · cases h
        exact ⟨isClosed_move hr (by simp), rfl, .inl ⟨rfl, .inr rfl⟩⟩

end Channel

/-! ### Every step minds the rows

One case for each action; the interesting ones are those in which the task empties the channel or reads its clock,
since it must then have the rows in hand itself. -/

variable {w w' : MissingWorld} {shown : List MissingLabel}

theorem MissingWorld.Minded.poll (h : w.Minded) {act : ChannelAct RostraId}
    (hact : act = .recv notifications ∨ act = .look notifications ∨ act = .changed notifications)
    (hstep : w.poll act = some (w', shown)) : w'.Minded := by
  simp only [MissingWorld.poll, Option.ite_none_right_eq_some, Option.map_eq_some_iff,
    Prod.mk.injEq] at hstep
  obtain ⟨hpc, ⟨c', shown₁⟩, hchan, rfl, -⟩ := hstep
  obtain ⟨trace, hl⟩ := h.lossless
  obtain ⟨hopen, hsending, hcases⟩ := poll_heard hl.sound hact hchan
  refine ⟨⟨_, hl.step hchan⟩, hopen, fun a ha => ?_, h.delay⟩
  -- what the task had in hand before it polled is nothing, or its deadline
  rcases h.rows a ha with hheard | hdeadline | hpc'
  · rcases hcases with ⟨hinner, hwoken⟩ | ⟨hwoken, hqueue⟩ | ⟨b, hwoken, hlag, hqueue⟩
    · refine .inl ?_
      simp only [Heard, hinner, hsending]
      exact hheard
    · exact .inr (.inr (by simp only [hwoken]))
    · rcases hheard with hq | hl | hh | hs
      · rcases hqueue a hq with rfl | hq
        · exact .inr (.inr (by simp only [hwoken]))
        · exact .inl (.inl hq)
      · exact .inl (.inr (.inl (hlag.trans hl)))
      · exact .inl (.inr (.inr (.inl hh)))
      · exact .inl (.inr (.inr (.inr (hsending.trans hs))))
  · exact .inr (.inl hdeadline)
  · rw [hpc] at hpc'
    exact hpc'.elim

theorem getLastIdWithMissingEventsTx_none {t : EventTables}
    (h : getLastIdWithMissingEventsTx t = none) : missingAuthors t = ∅ := Table.greatest_none h

theorem MissingWorld.Minded.go (h : w.Minded) (hstep : w.go = some (w', shown)) : w'.Minded := by
  have hworked : ∀ trigger, (w.passEnded trigger .workObserved).Minded := fun trigger =>
    ⟨h.lossless, h.listening, fun a _ => .inr (.inl (w.retry.reconcile_deadline trigger w.now)),
      w.retry.reconcile_delay trigger w.now _ h.delay⟩
  have hmove : ∀ pc, (∀ a ∈ missingAuthors w.db.ev, ({ w with pc := pc } : MissingWorld).Heard a ∨
      ({ w with pc := pc } : MissingWorld).Attended a) → ({ w with pc := pc } : MissingWorld).Minded :=
    fun pc hrows => ⟨h.lossless, h.listening, hrows, h.delay⟩
  unfold MissingWorld.go at hstep
  split at hstep
  · next author hpc =>
    cases hstep
    refine hmove _ fun a ha => ?_
    rcases h.rows a ha with hheard | hdeadline | hpc'
    · exact .inl hheard
    · exact .inr (.inl hdeadline)
    · -- the author in hand has a row, so the fetch will set a deadline
      rw [hpc] at hpc'
      obtain ⟨id, hid⟩ := mem_missingAuthors.mp ha
      obtain ⟨row, hrow⟩ := Option.isSome_iff_exists.mp hid
      refine .inr (.inr (decide_eq_true ⟨id, ?_⟩))
      rw [getMissingEventsForIdTx, Finset.mem_image]
      exact ⟨(a, id), Finset.mem_filter.mpr ⟨Table.mem_keys_of_get hrow, hpc'⟩, rfl⟩
  · next trigger hpc =>
    split at hstep
    · next hnone =>
      cases hstep
      refine ⟨h.lossless, h.listening, fun a ha => ?_, initial_le_max⟩
      have hempty : missingAuthors w.db.ev = ∅ := getLastIdWithMissingEventsTx_none hnone
      have hmem : a ∈ missingAuthors w.db.ev := ha
      rw [hempty] at hmem
      exact absurd hmem (Finset.notMem_empty a)
    · cases hstep
      exact hmove _ fun _ _ => .inr (.inr trivial)
  · dsimp only at hstep
    split at hstep
    · cases hstep
      exact hworked _
    · cases hstep
      exact hmove _ fun _ _ => .inr (.inr trivial)
  · cases hstep
    exact hmove _ fun _ _ => .inr (.inr trivial)
  · split at hstep
    · cases hstep
      exact hworked _
    · cases hstep
      exact hmove _ fun _ _ => .inr (.inr trivial)
  · cases hstep

theorem MissingWorld.Minded.fetchReturned (h : w.Minded) {ok : Bool}
    (hstep : w.fetchReturned ok = some (w', shown)) : w'.Minded := by
  unfold MissingWorld.fetchReturned at hstep
  split at hstep
  · next author had hpc =>
    split at hstep
    · cases hstep
      cases had with
      | true =>
        exact ⟨h.lossless, h.listening, fun a _ => .inr (.inl (w.retry.observe_deadline w.now)),
          w.retry.observe_delay w.now h.delay⟩
      | false =>
        refine ⟨h.lossless, h.listening, fun a ha => ?_, h.delay⟩
        rcases h.rows a ha with hheard | hdeadline | hpc'
        · exact .inl hheard
        · exact .inr (.inl hdeadline)
        · rw [hpc] at hpc'
          cases hpc'
    · cases hstep
      exact ⟨h.lossless, h.listening, fun _ _ => .inr (.inr trivial), h.delay⟩
  · split at hstep
    · cases hstep
      exact ⟨h.lossless, h.listening, fun _ _ => .inr (.inr trivial), h.delay⟩
    · cases hstep
      exact ⟨h.lossless, h.listening, fun _ _ => .inr (.inr trivial), h.delay⟩
  · cases hstep

theorem mem_missingHooks {hooks : List Signal} {a : RostraId} :
    a ∈ missingHooks hooks ↔ .missingEvents a ∈ hooks := by
  unfold missingHooks
  rw [List.mem_filterMap]
  constructor
  · rintro ⟨s, hs, heq⟩
    cases s with
    | missingEvents b =>
      cases heq
      exact hs
    | _ => cases heq
  · intro h
    exact ⟨_, h, rfl⟩


variable [Primitives] {env : Env} in
/-- **Every step minds the rows.** A commit that adds a row has a hook for it; a signal that is taken puts the
author in the hands of the task; a failure leaves it a deadline. -/
theorem MissingWorld.Minded.step (h : w.Minded) {a : MissingAct}
    (hstep : w.step env a = some (w', shown)) : w'.Minded := by
  obtain ⟨trace, hl⟩ := h.lossless
  cases a with
  | commit op =>
    simp only [MissingWorld.step, Option.ite_none_right_eq_some] at hstep
    obtain ⟨⟨hhooks, hfree⟩, hstep⟩ := hstep
    split at hstep
    · next db' hok =>
      cases hstep
      refine ⟨h.lossless, h.listening, fun a ha => ?_, h.delay⟩
      obtain ⟨id, hid⟩ := mem_missingAuthors.mp ha
      rcases (step_heralded hok).missing (a, id) hid with hold | hnew
      · rcases h.rows a (mem_missingAuthors.mpr ⟨id, hold⟩) with (hq | hlag | hh | hs) | hatt
        · exact .inl (.inl hq)
        · exact .inl (.inr (.inl hlag))
        · rw [hhooks] at hh
          cases hh
        · rw [hfree] at hs
          cases hs
        · exact .inr hatt
      · exact .inl (.inr (.inr (.inl (mem_missingHooks.mpr hnew))))
    · cases hstep
  | hookStart =>
    simp only [MissingWorld.step] at hstep
    split at hstep
    · cases hstep
    · next author hooks hcons =>
      obtain ⟨⟨c', shown₁⟩, hchan, heq⟩ := Option.map_eq_some_iff.mp hstep
      cases heq
      obtain ⟨hinner, hrec, hsent, hfree⟩ := sendStart_heard hl.sound h.listening hchan
      refine ⟨⟨_, hl.step hchan⟩, ?_, fun a ha => ?_, h.delay⟩
      · show c'.receivers.all _ = false
        rw [hrec]
        exact h.listening
      rcases h.rows a ha with (hq | hlag | hh | hs) | hatt
      · exact .inl (.inl (hinner ▸ hq))
      · exact .inl (.inr (.inl (hinner ▸ hlag)))
      · rw [hcons] at hh
        rcases List.mem_cons.mp hh with rfl | hh
        · rcases hsent with hq | hs
          · exact .inl (.inl hq)
          · exact .inl (.inr (.inr (.inr hs)))
        · exact .inl (.inr (.inr (.inl hh)))
      · rw [hfree] at hs
        cases hs
      · exact .inr hatt
  | hookFinish =>
    obtain ⟨⟨c', shown₁⟩, hchan, heq⟩ := Option.map_eq_some_iff.mp hstep
    cases heq
    obtain ⟨hrec, hlagged, hqueue, hsent⟩ := sendFinish_heard hchan
    refine ⟨⟨_, hl.step hchan⟩, ?_, fun a ha => ?_, h.delay⟩
    · show c'.receivers.all _ = false
      rw [hrec]
      exact h.listening
    rcases h.rows a ha with (hq | hlag | hh | hs) | hatt
    · exact .inl (.inl (hqueue a hq))
    · exact .inl (.inr (.inl (hlagged hlag)))
    · exact .inl (.inr (.inr (.inl hh)))
    · rcases hsent a hs with hq | hlag
      · exact .inl (.inl hq)
      · exact .inl (.inr (.inl hlag))
    · exact .inr hatt
  | disconnect =>
    have hlossless := hl.step (a := .disconnect) rfl
    cases hstep
    exact ⟨⟨_, hlossless⟩, h.listening, h.rows, h.delay⟩
  | tick elapsed =>
    cases hstep
    exact ⟨h.lossless, h.listening, h.rows, h.delay⟩
  | recv => exact h.poll (.inl rfl) hstep
  | look => exact h.poll (.inr (.inl rfl)) hstep
  | changed => exact h.poll (.inr (.inr rfl)) hstep
  | deadline =>
    simp only [MissingWorld.step] at hstep
    split at hstep
    · next deadline rcv hpc hdeadline hr =>
      simp only [Option.ite_none_right_eq_some, Option.some.injEq, Prod.mk.injEq] at hstep
      obtain ⟨-, rfl, -⟩ := hstep
      have hsound : (w.chan.move notifications { rcv with phase := .idle }).Sound :=
        hl.sound.move notifications (hl.sound.seen rcv (List.mem_of_getElem? hr)) (by simp)
      exact ⟨⟨_, hl.quiet hsound rfl⟩, isClosed_move hr (by simp), fun _ _ => .inr (.inr trivial),
        h.delay⟩
    · cases hstep
  | go => exact h.go hstep
  | fetchReturned ok => exact h.fetchReturned hstep

/-! ## 2. A pass

A pass goes through the authors that have missing events in pages, with calls in between that take their time.
Authors come and go meanwhile; what is claimed is about those that have missing events from its beginning to its
end. -/

/-- What the trace says about the latest pass: the calls since it began, and the authors that have had
missing events ever since. -/
structure PassView where
  called : List RostraId := []
  steady : Finset RostraId := ∅

def PassView.see (view : PassView) : MissingLabel → PassView
  | .passBegan authors => ⟨[], authors⟩
  | .fetched author => { view with called := view.called ++ [author] }
  | .committed authors => { view with steady := view.steady ∩ authors }
  | .passEnded => view

def lastPass (trace : List MissingLabel) : PassView := trace.foldl PassView.see {}

theorem lastPass_append (trace shown : List MissingLabel) :
    lastPass (trace ++ shown) = shown.foldl PassView.see (lastPass trace) := List.foldl_append

/-- Every author that had missing events all the time was called for, once. -/
def PassView.Exact (view : PassView) : Prop := ∀ a ∈ view.steady, view.called.count a = 1

/-- How far the pass is. -/
def MissingPc.Progressed (view : PassView) : MissingPc → Prop
  | .page _ highWater cursor =>
    view.called.Pairwise (· < ·) ∧ (∀ x ∈ view.called, ∃ c, cursor = some c ∧ x ≤ c) ∧
      ∀ a ∈ view.steady, a ≤ highWater ∧ ((∀ c ∈ cursor, c < a) ∨ a ∈ view.called)
  | .authors _ highWater todo last | .visiting _ highWater todo last =>
    (view.called ++ todo).Pairwise (· < ·) ∧ (∀ x ∈ view.called ++ todo, x ≤ last) ∧
      last ≤ highWater ∧ ∀ a ∈ view.steady, a ≤ highWater ∧ (last < a ∨ a ∈ view.called ++ todo)
  | _ => True

/-- **The invariant of a pass.** `steady` are the authors that were missing an event in every state of the pass so
far; each of them was attempted once, or is in front of the cursor. -/
structure PassKept (w : MissingWorld) (trace : List MissingLabel) : Prop where
  steady : (lastPass trace).steady ⊆ missingAuthors w.db.ev
  progressed : w.pc.Progressed (lastPass trace)
  ended : ∀ before after, trace = before ++ .passEnded :: after → (lastPass before).Exact

theorem exact_of_mem {view : PassView} (hsorted : view.called.Pairwise (· < ·))
    (hmem : ∀ a ∈ view.steady, a ∈ view.called) : view.Exact := by
  intro a ha
  have hnodup : view.called.Nodup := hsorted.imp fun h => ne_of_lt h
  exact List.count_eq_one_of_mem hnodup (hmem a ha)

/-- Authors that lose their last row only make the pass easier. -/
theorem MissingPc.Progressed.commit {view : PassView} {pc : MissingPc} (h : pc.Progressed view)
    (authors : Finset RostraId) :
    pc.Progressed { view with steady := view.steady ∩ authors } := by
  cases pc with
  | page trigger high cursor =>
    exact ⟨h.1, h.2.1, fun a ha => h.2.2 a (Finset.mem_inter.mp ha).1⟩
  | authors trigger high todo last =>
    exact ⟨h.1, h.2.1, h.2.2.1, fun a ha => h.2.2.2 a (Finset.mem_inter.mp ha).1⟩
  | visiting trigger high todo last =>
    exact ⟨h.1, h.2.1, h.2.2.1, fun a ha => h.2.2.2 a (Finset.mem_inter.mp ha).1⟩
  | _ => trivial

theorem mem_takeWhile_of_sorted {l : List RostraId} {a high : RostraId} (hs : l.Pairwise (· < ·))
    (ha : a ∈ l) (hle : a ≤ high) : a ∈ l.takeWhile (· ≤ high) := by
  induction l with
  | nil => cases ha
  | cons x l ih =>
    obtain ⟨hx, hl⟩ := List.pairwise_cons.mp hs
    have hxle : x ≤ high := by
      rcases List.mem_cons.mp ha with rfl | ha
      · exact hle
      · exact (hx a ha).le.trans hle
    rw [List.takeWhile_cons_of_pos (by simpa using hxle)]
    rcases List.mem_cons.mp ha with rfl | ha
    · exact List.mem_cons_self
    · exact List.mem_cons_of_mem _ (ih hl ha)

/-- The part of a page below the high water mark. -/
structure PageBelow (owners : Finset RostraId) (cursor : Option RostraId) (high : RostraId)
    (authors : List RostraId) : Prop where
  sorted : authors.Pairwise (· < ·)
  beyond : ∀ a ∈ authors, a ∈ owners ∧ a ≤ high ∧ ∀ c ∈ cursor, c < a
  full : ∀ a ∈ owners, a ≤ high → (∀ c ∈ cursor, c < a) →
    a ∈ authors ∨ (authors ≠ [] ∧ ∀ x ∈ authors, x < a)

theorem PageBelow.le_last {owners : Finset RostraId} {cursor : Option RostraId}
    {high last : RostraId} {authors : List RostraId} (h : PageBelow owners cursor high authors)
    (hlast : authors.getLast? = some last) : ∀ x ∈ authors, x ≤ last := by
  intro x hx
  obtain ⟨init, rfl⟩ := List.getLast?_eq_some_iff.mp hlast
  rcases List.mem_append.mp hx with hx | hx
  · exact ((List.pairwise_append.mp h.sorted).2.2 x hx last (by simp)).le
  · exact (List.mem_singleton.mp hx).le

theorem pageBelow (t : EventTables) (cursor : Option RostraId) (high : RostraId) :
    PageBelow (missingAuthors t) cursor high
      ((getIdsWithMissingEventsTx t cursor RECONCILE_PAGE_SIZE).takeWhile (· ≤ high)) := by
  have hpage : Pages.IsPage (missingAuthors t) cursor RECONCILE_PAGE_SIZE
      (getIdsWithMissingEventsTx t cursor RECONCILE_PAGE_SIZE) := Pages.isPage_pageAfter _ _ _
  generalize getIdsWithMissingEventsTx t cursor RECONCILE_PAGE_SIZE = page at hpage
  have hpre : page.takeWhile (· ≤ high) <+: page := List.takeWhile_prefix _
  refine ⟨hpage.sorted.sublist hpre.sublist, fun a ha => ?_, fun a ha hle hc => ?_⟩
  · obtain ⟨howner, hc⟩ := hpage.mem a (hpre.subset ha)
    exact ⟨howner, by simpa using List.all_eq_true.mp List.all_takeWhile a ha, hc⟩
  · rcases hpage.full a ha hc with hin | ⟨hlen, hlt⟩
    · exact .inl (mem_takeWhile_of_sorted hpage.sorted hin hle)
    · refine .inr ⟨?_, fun x hx => hlt x (hpre.subset hx)⟩
      -- a full page of smaller authors is below the mark
      cases page with
      | nil => cases hlen
      | cons x page =>
        have hx : x ≤ high := (hlt x List.mem_cons_self).le.trans hle
        rw [List.takeWhile_cons_of_pos (by simpa using hx)]
        simp

/-- A page below the mark takes the place of the rest of the pass. -/
theorem MissingPc.Progressed.paged {view : PassView} {trigger : MissingReconcileTrigger}
    {high last : RostraId} {cursor : Option RostraId} {authors : List RostraId}
    {owners : Finset RostraId} (h : (MissingPc.page trigger high cursor).Progressed view)
    (hsteady : view.steady ⊆ owners) (hpage : PageBelow owners cursor high authors)
    (hlast : authors.getLast? = some last) :
    (MissingPc.authors trigger high authors last).Progressed view := by
  obtain ⟨hsorted, hcalled, hrest⟩ := h
  have hmem : last ∈ authors := List.mem_of_getLast? hlast
  have hle := hpage.le_last hlast
  have hbefore : ∀ x ∈ view.called, ∀ y ∈ authors, x < y := by
    intro x hx y hy
    obtain ⟨c, hc, hxc⟩ := hcalled x hx
    exact lt_of_le_of_lt hxc ((hpage.beyond y hy).2.2 c hc)
  refine ⟨List.pairwise_append.mpr ⟨hsorted, hpage.sorted, hbefore⟩, fun x hx => ?_,
    (hpage.beyond last hmem).2.1, fun a ha => ?_⟩
  · rcases List.mem_append.mp hx with hx | hx
    · exact (hbefore x hx last hmem).le
    · exact hle x hx
  · obtain ⟨hahigh, hc | hin⟩ := hrest a ha
    · rcases hpage.full a (hsteady ha) hahigh hc with hin | ⟨-, hlt⟩
      · exact ⟨hahigh, .inr (List.mem_append_right _ hin)⟩
      · exact ⟨hahigh, .inl (hlt last hmem)⟩
    · exact ⟨hahigh, .inr (List.mem_append_left _ hin)⟩

/-- The trace of a step that ends no pass. -/
theorem PassKept.extend {w w' : MissingWorld} {trace shown : List MissingLabel}
    (h : PassKept w trace) (hshown : .passEnded ∉ shown)
    (hsteady : (lastPass (trace ++ shown)).steady ⊆ missingAuthors w'.db.ev)
    (hprogressed : w'.pc.Progressed (lastPass (trace ++ shown))) : PassKept w' (trace ++ shown) := by
  refine ⟨hsteady, hprogressed, fun before after heq => ?_⟩
  rcases List.append_eq_append_iff.mp heq with ⟨mid, hbefore, hmid⟩ | ⟨mid, htrace, hmid⟩
  · exact absurd (hmid ▸ List.mem_append_right mid List.mem_cons_self) hshown
  · cases mid with
    | nil =>
      have heq : shown = .passEnded :: after := hmid.symm
      exact absurd (heq ▸ List.mem_cons_self) hshown
    | cons e mid =>
      obtain ⟨rfl, -⟩ := List.cons.inj hmid
      exact h.ended before mid htrace

/-- A step of the world around the task. -/
theorem PassKept.quiet {w w' : MissingWorld} {trace : List MissingLabel} (h : PassKept w trace)
    (hdb : w'.db = w.db) (hpc : w'.pc = w.pc ∨ ∀ view, w'.pc.Progressed view) :
    PassKept w' (trace ++ []) := by
  refine h.extend (by simp) ?_ ?_
  · rw [List.append_nil, hdb]
    exact h.steady
  · rw [List.append_nil]
    rcases hpc with hpc | hpc
    · rw [hpc]
      exact h.progressed
    · exact hpc _

/-- The end of a pass. -/
theorem PassKept.finish {w w' : MissingWorld} {trace : List MissingLabel} (h : PassKept w trace)
    (hdb : w'.db = w.db) (hpc : w'.pc = .waiting) (hexact : (lastPass trace).Exact) :
    PassKept w' (trace ++ [.passEnded]) := by
  have hview : lastPass (trace ++ [.passEnded]) = lastPass trace := by
    rw [lastPass_append]
    rfl
  refine ⟨?_, ?_, fun before after heq => ?_⟩
  · rw [hview, hdb]
    exact h.steady
  · rw [hpc]
    trivial
  · rcases List.eq_nil_or_concat after with rfl | ⟨after', x, rfl⟩
    · obtain ⟨rfl, -⟩ := List.append_inj' heq rfl
      exact hexact
    · have hcons : trace ++ [.passEnded] = (before ++ .passEnded :: after') ++ [x] := by
        simpa using heq
      exact h.ended before after' (List.append_inj' hcons rfl).1

theorem PassKept.go {w w' : MissingWorld} {trace shown : List MissingLabel} (h : PassKept w trace)
    (hstep : w.go = some (w', shown)) : PassKept w' (trace ++ shown) := by
  have hprogressed := h.progressed
  unfold MissingWorld.go at hstep
  split at hstep
  · next author hpc =>
    cases hstep
    refine h.extend (by simp) ?_ trivial
    rw [lastPass_append]
    exact h.steady
  · next trigger hpc =>
    split at hstep
    · next hnone =>
      cases hstep
      -- the pass begins and ends with an empty table
      have hempty : missingAuthors w.db.ev = ∅ := getLastIdWithMissingEventsTx_none hnone
      have hbegan : PassKept (w.passEnded trigger .empty)
          (trace ++ [.passBegan (missingAuthors w.db.ev)]) := by
        refine h.extend (by simp) ?_ trivial
        rw [lastPass_append]
        exact Finset.Subset.refl _
      have hexact : (lastPass (trace ++ [.passBegan (missingAuthors w.db.ev)])).Exact := by
        intro a ha
        rw [lastPass_append] at ha
        have hmem : a ∈ missingAuthors w.db.ev := ha
        rw [hempty] at hmem
        exact absurd hmem (Finset.notMem_empty a)
      have hended : PassKept (w.passEnded trigger .empty)
          (trace ++ [.passBegan (missingAuthors w.db.ev)] ++ [.passEnded]) :=
        hbegan.finish rfl rfl hexact
      simpa using hended
    · next high hhigh =>
      cases hstep
      refine h.extend (by simp) ?_ ?_
      · rw [lastPass_append]
        exact Finset.Subset.refl _
      · rw [lastPass_append]
        refine ⟨List.Pairwise.nil, fun x hx => ?_, fun a ha => ?_⟩
        · exact absurd hx List.not_mem_nil
        · exact ⟨Table.le_greatest hhigh ha, .inl fun c hc => by cases hc⟩
  · next trigger high cursor hpc =>
    rw [hpc] at hprogressed
    have hpage := pageBelow w.db.ev cursor high
    dsimp only at hstep
    split at hstep
    · next hlast =>
      cases hstep
      refine h.finish rfl rfl (exact_of_mem hprogressed.1 fun a ha => ?_)
      obtain ⟨hle, hc | hin⟩ := hprogressed.2.2 a ha
      · rw [List.getLast?_eq_none_iff.mp hlast] at hpage
        rcases hpage.full a (h.steady ha) hle hc with hin | ⟨hne, -⟩
        · cases hin
        · exact absurd rfl hne
      · exact hin
    · next last hlast =>
      cases hstep
      refine h.extend (by simp) ?_ ?_
      · rw [List.append_nil]
        exact h.steady
      · rw [List.append_nil]
        exact hprogressed.paged h.steady hpage hlast
  · next trigger high author todo last hpc =>
    rw [hpc] at hprogressed
    cases hstep
    refine h.extend (by simp) ?_ ?_
    · rw [lastPass_append]
      exact h.steady
    · rw [lastPass_append]
      have hsame : ((lastPass trace).called ++ [author]) ++ todo =
          (lastPass trace).called ++ author :: todo := by simp
      refine ⟨hsame ▸ hprogressed.1, fun x hx => hprogressed.2.1 x (hsame ▸ hx),
        hprogressed.2.2.1, fun a ha => ?_⟩
      obtain ⟨hle, hpast | hin⟩ := hprogressed.2.2.2 a ha
      · exact ⟨hle, .inl hpast⟩
      · exact ⟨hle, .inr (hsame ▸ hin)⟩
  · next trigger high last hpc =>
    rw [hpc] at hprogressed
    obtain ⟨hsorted, hbelow, hhigh, hrest⟩ := hprogressed
    rw [List.append_nil] at hsorted hbelow
    split at hstep
    · next heq =>
      cases hstep
      refine h.finish rfl rfl (exact_of_mem hsorted fun a ha => ?_)
      obtain ⟨hle, hpast | hin⟩ := hrest a ha
      · exact absurd (heq ▸ hle) (not_le_of_gt hpast)
      · simpa using hin
    · cases hstep
      refine h.extend (by simp) ?_ ?_
      · rw [List.append_nil]
        exact h.steady
      · rw [List.append_nil]
        refine ⟨hsorted, fun x hx => ⟨last, rfl, hbelow x hx⟩, fun a ha => ?_⟩
        obtain ⟨hle, hpast | hin⟩ := hrest a ha
        · exact ⟨hle, .inl fun c hc => by cases hc; exact hpast⟩
        · exact ⟨hle, .inr (by simpa using hin)⟩
  · cases hstep

theorem progressed_woken (shown : List (Shown RostraId)) (view : PassView) :
    (MissingPc.woken shown).Progressed view := by
  unfold MissingPc.woken
  split
  · trivial
  · trivial
  · trivial
  · trivial

theorem PassKept.poll {w w' : MissingWorld} {trace shown : List MissingLabel} (h : PassKept w trace)
    {act : ChannelAct RostraId} (hstep : w.poll act = some (w', shown)) :
    PassKept w' (trace ++ shown) := by
  simp only [MissingWorld.poll, Option.ite_none_right_eq_some, Option.map_eq_some_iff,
    Prod.mk.injEq] at hstep
  obtain ⟨-, r, -, rfl, rfl⟩ := hstep
  exact h.quiet rfl (.inr fun view => progressed_woken r.2 view)

variable [Primitives] {env : Env} in
/-- **Every step keeps the pass.** Commits may take authors out of the steady ones, and add others that the pass
does not owe anything. -/
theorem PassKept.step {w w' : MissingWorld} {trace shown : List MissingLabel} (h : PassKept w trace)
    {a : MissingAct} (hstep : w.step env a = some (w', shown)) : PassKept w' (trace ++ shown) := by
  cases a with
  | commit op =>
    simp only [MissingWorld.step, Option.ite_none_right_eq_some] at hstep
    obtain ⟨-, hstep⟩ := hstep
    split at hstep
    · cases hstep
      refine h.extend (by simp) ?_ ?_
      · rw [lastPass_append]
        exact Finset.inter_subset_right
      · rw [lastPass_append]
        exact h.progressed.commit _
    · cases hstep
  | hookStart =>
    simp only [MissingWorld.step] at hstep
    split at hstep
    · cases hstep
    · obtain ⟨r, -, heq⟩ := Option.map_eq_some_iff.mp hstep
      cases heq
      exact h.quiet rfl (.inl rfl)
  | hookFinish =>
    obtain ⟨r, -, heq⟩ := Option.map_eq_some_iff.mp hstep
    cases heq
    exact h.quiet rfl (.inl rfl)
  | disconnect =>
    cases hstep
    exact h.quiet rfl (.inl rfl)
  | tick elapsed =>
    cases hstep
    exact h.quiet rfl (.inl rfl)
  | recv => exact h.poll hstep
  | look => exact h.poll hstep
  | changed => exact h.poll hstep
  | deadline =>
    simp only [MissingWorld.step] at hstep
    split at hstep
    · simp only [Option.ite_none_right_eq_some, Option.some.injEq, Prod.mk.injEq] at hstep
      obtain ⟨-, rfl, rfl⟩ := hstep
      exact h.quiet rfl (.inr fun _ => trivial)
    · cases hstep
  | go => exact h.go hstep
  | fetchReturned ok =>
    have hprogressed := h.progressed
    simp only [MissingWorld.step, MissingWorld.fetchReturned] at hstep
    split at hstep
    · split at hstep
      · cases hstep
        exact h.quiet rfl (.inr fun _ => trivial)
      · cases hstep
        exact h.quiet rfl (.inr fun _ => trivial)
    · next trigger high todo last hpc =>
      rw [hpc] at hprogressed
      split at hstep
      · cases hstep
        refine h.extend (by simp) ?_ ?_
        · rw [List.append_nil]
          exact h.steady
        · rw [List.append_nil]
          exact hprogressed
      · cases hstep
        exact h.quiet rfl (.inr fun _ => trivial)
    · cases hstep

/-! ## 3. A pass ends

The cursor of a pass only grows, and there are finitely many accounts to grow through. -/

section Ends

variable (ids : Finset RostraId)

/-- The accounts that a pass can still come to. -/
def remaining (high : RostraId) (cursor : Option RostraId) : ℕ :=
  (ids.filter fun x => x ≤ high ∧ ∀ c ∈ cursor, c < x).card

/-- A bound on the steps that the pass has left. -/
def passWork : MissingPc → ℕ
  | .reconcile _ => 4 * ids.card + 2
  | .page _ high cursor => 4 * remaining ids high cursor + 1
  | .authors _ high todo last => 2 * todo.length + 4 * remaining ids high (some last) + 2
  | .visiting _ high todo last => 2 * todo.length + 4 * remaining ids high (some last) + 3
  | _ => 0

def MissingPc.inPass : MissingPc → Bool
  | .reconcile _ | .page .. | .authors .. | .visiting .. => true
  | _ => false

theorem remaining_le (high : RostraId) (cursor : Option RostraId) :
    remaining ids high cursor ≤ ids.card := Finset.card_filter_le _ _

variable {ids} in
/-- The authors of a page are no longer to come. -/
theorem remaining_paged {high last : RostraId} {cursor : Option RostraId} {authors : List RostraId}
    {owners : Finset RostraId} (hpage : PageBelow owners cursor high authors) (hids : owners ⊆ ids)
    (hlast : authors.getLast? = some last) :
    authors.length + remaining ids high (some last) ≤ remaining ids high cursor := by
  have hnodup : authors.Nodup := hpage.sorted.imp fun h => ne_of_lt h
  have hmem : last ∈ authors := List.mem_of_getLast? hlast
  have hle := hpage.le_last hlast
  have hdisjoint : Disjoint authors.toFinset
      (ids.filter fun x => x ≤ high ∧ ∀ c ∈ some last, c < x) := by
    refine Finset.disjoint_left.mpr fun x hx hx' => ?_
    have hlt : last < x := (Finset.mem_filter.mp hx').2.2 last rfl
    exact absurd (hle x (List.mem_toFinset.mp hx)) (not_le_of_gt hlt)
  have hsubset : authors.toFinset ∪ (ids.filter fun x => x ≤ high ∧ ∀ c ∈ some last, c < x) ⊆
      ids.filter fun x => x ≤ high ∧ ∀ c ∈ cursor, c < x := by
    intro x hx
    rcases Finset.mem_union.mp hx with hx | hx
    · obtain ⟨howner, hhigh, hc⟩ := hpage.beyond x (List.mem_toFinset.mp hx)
      exact Finset.mem_filter.mpr ⟨hids howner, hhigh, hc⟩
    · obtain ⟨hx, hhigh, hc⟩ := Finset.mem_filter.mp hx
      refine Finset.mem_filter.mpr ⟨hx, hhigh, fun c hcc => ?_⟩
      exact ((hpage.beyond last hmem).2.2 c hcc).trans (hc last rfl)
  calc authors.length + remaining ids high (some last)
      = (authors.toFinset ∪ ids.filter fun x => x ≤ high ∧ ∀ c ∈ some last, c < x).card := by
        rw [Finset.card_union_of_disjoint hdisjoint, List.toFinset_card_of_nodup hnodup]
        rfl
    _ ≤ remaining ids high cursor := Finset.card_le_card hsubset

variable {ids} in
/-- **Every statement of a pass brings it closer to its end.** The measure counts the authors below the high water
mark in front of the cursor, and what is left of the page. -/
theorem go_passWork {w w' : MissingWorld} {shown : List MissingLabel}
    (hids : missingAuthors w.db.ev ⊆ ids) (hpass : w.pc.inPass = true)
    (hstep : w.go = some (w', shown)) : passWork ids w'.pc < passWork ids w.pc := by
  unfold MissingWorld.go at hstep
  split at hstep
  · next author hpc =>
    rw [hpc] at hpass
    cases hpass
  · next trigger hpc =>
    rw [hpc]
    split at hstep
    · cases hstep
      exact Nat.succ_pos _
    · next high _ =>
      cases hstep
      have hle := remaining_le ids high none
      simp only [passWork]
      omega
  · next trigger high cursor hpc =>
    rw [hpc]
    dsimp only at hstep
    split at hstep
    · cases hstep
      exact Nat.succ_pos _
    · next last hlast =>
      cases hstep
      have hle := remaining_paged (pageBelow w.db.ev cursor high) hids hlast
      have hpos := List.length_pos_of_mem (List.mem_of_getLast? hlast)
      simp only [passWork]
      omega
  · next trigger high author todo last hpc =>
    rw [hpc]
    cases hstep
    simp only [passWork, List.length_cons]
    omega
  · next trigger high last hpc =>
    rw [hpc]
    split at hstep
    · cases hstep
      exact Nat.succ_pos _
    · cases hstep
      simp only [passWork, List.length_nil]
      omega
  · cases hstep

theorem fetchReturned_passWork {w w' : MissingWorld} {shown : List MissingLabel} {ok : Bool}
    (hpass : w.pc.inPass = true) (hstep : w.fetchReturned ok = some (w', shown)) :
    passWork ids w'.pc < passWork ids w.pc := by
  unfold MissingWorld.fetchReturned at hstep
  split at hstep
  · next author had hpc =>
    rw [hpc] at hpass
    cases hpass
  · next trigger high todo last hpc =>
    rw [hpc]
    split at hstep
    · cases hstep
      simp only [passWork]
      omega
    · cases hstep
      simp only [passWork]
      omega
  · cases hstep

end Ends

section Steps

variable [Primitives] {env : Env}

/-- The steps of the task itself. -/
def MissingAct.isOwn : MissingAct → Bool
  | .go | .fetchReturned _ => true
  | _ => false

/-- A task in a pass can go on. -/
theorem inPass_enabled {w : MissingWorld} (hpass : w.pc.inPass = true) :
    ∃ a, a.isOwn = true ∧ (w.step env a).isSome = true := by
  cases hpc : w.pc with
  | reconcile trigger =>
    refine ⟨.go, rfl, ?_⟩
    simp only [MissingWorld.step, MissingWorld.go, hpc]
    split
    · rfl
    · rfl
  | page trigger high cursor =>
    refine ⟨.go, rfl, ?_⟩
    simp only [MissingWorld.step, MissingWorld.go, hpc]
    split
    · rfl
    · rfl
  | authors trigger high todo last =>
    refine ⟨.go, rfl, ?_⟩
    cases todo with
    | nil =>
      simp only [MissingWorld.step, MissingWorld.go, hpc]
      split
      · rfl
      · rfl
    | cons author todo =>
      simp only [MissingWorld.step, MissingWorld.go, hpc]
      rfl
  | visiting trigger high todo last =>
    refine ⟨.fetchReturned true, rfl, ?_⟩
    simp only [MissingWorld.step, MissingWorld.fetchReturned, hpc, if_true]
    rfl
  | _ =>
    rw [hpc] at hpass
    cases hpass

/-- In a pass the world around the task leaves it where it is. -/
theorem inPass_around {w w' : MissingWorld} {shown : List MissingLabel} {a : MissingAct}
    (hpass : w.pc.inPass = true) (hown : a.isOwn = false)
    (hstep : w.step env a = some (w', shown)) : w'.pc = w.pc := by
  have hpoll : ∀ act, w.poll act = none := by
    intro act
    refine if_neg fun hpc => ?_
    rw [hpc] at hpass
    cases hpass
  cases a with
  | commit op =>
    simp only [MissingWorld.step, Option.ite_none_right_eq_some] at hstep
    obtain ⟨-, hstep⟩ := hstep
    split at hstep
    · cases hstep
      rfl
    · cases hstep
  | hookStart =>
    simp only [MissingWorld.step] at hstep
    split at hstep
    · cases hstep
    · obtain ⟨r, -, heq⟩ := Option.map_eq_some_iff.mp hstep
      cases heq
      rfl
  | hookFinish =>
    obtain ⟨r, -, heq⟩ := Option.map_eq_some_iff.mp hstep
    cases heq
    rfl
  | disconnect =>
    cases hstep
    rfl
  | tick elapsed =>
    cases hstep
    rfl
  | deadline =>
    simp only [MissingWorld.step] at hstep
    split at hstep
    · next hpc _ _ =>
      rw [hpc] at hpass
      cases hpass
    · cases hstep
  | recv => exact absurd (show w.poll _ = _ from hstep) (by rw [hpoll]; exact nofun)
  | look => exact absurd (show w.poll _ = _ from hstep) (by rw [hpoll]; exact nofun)
  | changed => exact absurd (show w.poll _ = _ from hstep) (by rw [hpoll]; exact nofun)
  | go => cases hown
  | fetchReturned ok => cases hown

/-! ## 4. The task

The parts put together, for every interleaving from a reached database. -/

/-- Every envelope that is committed has its author in `ids`. -/
def AuthoredIn (ids : Finset RostraId) (acts : List MissingAct) : Prop :=
  ∀ op, MissingAct.commit op ∈ acts → ∀ v ∈ op.delivered, v.event.author ∈ ids

/-- Only a commit changes the tables. -/
theorem step_db {w w' : MissingWorld} {shown : List MissingLabel} {a : MissingAct}
    (hstep : w.step env a = some (w', shown)) :
    w'.db = w.db ∨ ∃ op, a = .commit op ∧ Db.step env w.db op = .ok w'.db := by
  have hpoll : ∀ act, w.poll act = some (w', shown) → w'.db = w.db := by
    intro act h
    simp only [MissingWorld.poll, Option.ite_none_right_eq_some, Option.map_eq_some_iff,
      Prod.mk.injEq] at h
    obtain ⟨-, r, -, rfl, -⟩ := h
    rfl
  cases a with
  | commit op =>
    simp only [MissingWorld.step, Option.ite_none_right_eq_some] at hstep
    obtain ⟨-, hstep⟩ := hstep
    split at hstep
    · next db' hok =>
      cases hstep
      exact .inr ⟨op, rfl, hok⟩
    · cases hstep
  | hookStart =>
    simp only [MissingWorld.step] at hstep
    split at hstep
    · cases hstep
    · obtain ⟨r, -, heq⟩ := Option.map_eq_some_iff.mp hstep
      cases heq
      exact .inl rfl
  | hookFinish =>
    obtain ⟨r, -, heq⟩ := Option.map_eq_some_iff.mp hstep
    cases heq
    exact .inl rfl
  | disconnect =>
    cases hstep
    exact .inl rfl
  | tick elapsed =>
    cases hstep
    exact .inl rfl
  | recv => exact .inl (hpoll _ hstep)
  | look => exact .inl (hpoll _ hstep)
  | changed => exact .inl (hpoll _ hstep)
  | deadline =>
    simp only [MissingWorld.step] at hstep
    split at hstep
    · simp only [Option.ite_none_right_eq_some, Option.some.injEq, Prod.mk.injEq] at hstep
      obtain ⟨-, rfl, -⟩ := hstep
      exact .inl rfl
    · cases hstep
  | go =>
    simp only [MissingWorld.step, MissingWorld.go] at hstep
    split at hstep
    · cases hstep
      exact .inl rfl
    · split at hstep
      · cases hstep
        exact .inl rfl
      · cases hstep
        exact .inl rfl
    · split at hstep
      · cases hstep
        exact .inl rfl
      · cases hstep
        exact .inl rfl
    · cases hstep
      exact .inl rfl
    · split at hstep
      · cases hstep
        exact .inl rfl
      · cases hstep
        exact .inl rfl
    · cases hstep
  | fetchReturned ok =>
    simp only [MissingWorld.step, MissingWorld.fetchReturned] at hstep
    split at hstep
    · split at hstep
      · cases hstep
        exact .inl rfl
      · cases hstep
        exact .inl rfl
    · split at hstep
      · cases hstep
        exact .inl rfl
      · cases hstep
        exact .inl rfl
    · cases hstep

/-- Rows are rows of accounts. -/
theorem step_authored {ids : Finset RostraId} {w w' : MissingWorld} {shown : List MissingLabel}
    {a : MissingAct} (hw : missingAuthors w.db.ev ⊆ ids)
    (ha : ∀ op, a = .commit op → ∀ v ∈ op.delivered, v.event.author ∈ ids)
    (hstep : w.step env a = some (w', shown)) : missingAuthors w'.db.ev ⊆ ids := by
  rcases step_db hstep with hsame | ⟨op, rfl, hok⟩
  · rw [hsame]
    exact hw
  · intro b hb
    obtain ⟨id, hid⟩ := mem_missingAuthors.mp hb
    rcases (step_heralded hok).missing (b, id) hid with hold | hnew
    · exact hw (mem_missingAuthors.mpr ⟨id, hold⟩)
    · obtain ⟨v, hv, hauthor⟩ := mem_signals_missingEvents hnew
      have hsame : v.event.author = b := hauthor
      rw [← hsame]
      exact ha op rfl v hv

omit [Primitives] in
theorem minded_start (db : Database) : ({ db := db } : MissingWorld).Minded := by
  have hsubscribed := (Channel.lossless_subscribed 100 : (Channel.subscribed 100 :
    Channel RostraId).Lossless [])
  have hcloned := hsubscribed.step (a := .clone 0) rfl
  exact ⟨⟨_, hcloned⟩, rfl, fun _ _ => .inr (.inr trivial), initial_le_max⟩

omit [Primitives] in
theorem passKept_start (db : Database) : PassKept { db := db } [] :=
  ⟨Finset.empty_subset _, trivial, fun before after h => by simp at h⟩

/-- **Missing-envelope work is never stranded.**  There are finitely many accounts, `ids`.  In every
interleaving: a task that waits without a deadline after the hooks have run has every author with a row
in its channel, or its channel is marked; its retry delay is bounded; every pass that ended has called
for each author with rows all through it exactly once; and a task in a pass can go on, while its own
steps bring the pass closer to its end and nothing else moves it. -/
theorem missing_never_stranded (env : Env) (db : Database) (ids : Finset RostraId)
    (hdb : missingAuthors db.ev ⊆ ids) (acts : List MissingAct) (hacts : AuthoredIn ids acts) :
    ((missingRan env db acts).1.pc = .waiting → (missingRan env db acts).1.retry.deadline = none →
      (missingRan env db acts).1.hooks = [] → (missingRan env db acts).1.chan.sending = none →
      ∀ a ∈ missingAuthors (missingRan env db acts).1.db.ev,
        a ∈ (missingRan env db acts).1.chan.inner.queue ∨
          (missingRan env db acts).1.chan.inner.lagged = true) ∧
    (missingRan env db acts).1.retry.delay ≤ MAX_RETRY_DELAY ∧
    (∀ before after, (missingRan env db acts).2 = before ++ .passEnded :: after →
      (lastPass before).Exact) ∧
    ((missingRan env db acts).1.pc.inPass = true →
      (∃ a, a.isOwn = true ∧ ((missingRan env db acts).1.step env a).isSome = true) ∧
      ∀ a w' shown, (missingRan env db acts).1.step env a = some (w', shown) →
        if a.isOwn then passWork ids w'.pc < passWork ids (missingRan env db acts).1.pc
        else w'.pc = (missingRan env db acts).1.pc) := by
  have hrun : (missingRan env db acts).1.Minded ∧
      PassKept (missingRan env db acts).1 (missingRan env db acts).2 ∧
      missingAuthors (missingRan env db acts).1.db.ev ⊆ ids := Machine.run_invariant
    (J := fun w trace => w.Minded ∧ PassKept w trace ∧ missingAuthors w.db.ev ⊆ ids)
    ⟨minded_start db, passKept_start db, hdb⟩ acts
    fun a ha w trace w' shown h hstep => ⟨h.1.step hstep, h.2.1.step hstep,
      step_authored h.2.2 (fun op hop => hacts op (hop ▸ ha)) hstep⟩
  obtain ⟨hminded, hkept, hids⟩ := hrun
  refine ⟨fun hpc hdeadline hhooks hfree a ha => ?_, hminded.delay, hkept.ended, fun hpass =>
    ⟨inPass_enabled hpass, fun a w' shown hstep => ?_⟩⟩
  · rcases hminded.rows a ha with (hq | hlag | hh | hs) | hdue | hpc'
    · exact .inl hq
    · exact .inr hlag
    · rw [hhooks] at hh
      cases hh
    · rw [hfree] at hs
      cases hs
    · rw [hdeadline] at hdue
      cases hdue
    · rw [hpc] at hpc'
      exact hpc'.elim
  · cases hown : a.isOwn with
    | false => exact inPass_around hpass hown hstep
    | true =>
      cases a with
      | go => exact go_passWork hids hpass hstep
      | fetchReturned ok => exact fetchReturned_passWork ids hpass hstep
      | _ => cases hown

end Steps

section Sample

attribute [local instance] Primitives.reference

/-- A child arrives whose parent nobody has sent, after the first pass found nothing to do. -/
def sampleMissingRun : List MissingAct :=
  [.go, .commit (.ingest [.envelope (.ofEvent sampleDeletion) 7 .local]), .hookStart, .hookFinish]

theorem missing_never_stranded_sampleMissingRun :
    toLex (1, 1) ∈ missingAuthors (missingRan sampleEnv {} sampleMissingRun).1.db.ev ∧
      (toLex (1, 1) ∈ (missingRan sampleEnv {} sampleMissingRun).1.chan.inner.queue ∨
        (missingRan sampleEnv {} sampleMissingRun).1.chan.inner.lagged = true) := by
  have hrow : toLex (1, 1) ∈ missingAuthors (missingRan sampleEnv {} sampleMissingRun).1.db.ev := by
    decide +kernel
  have hauthored : AuthoredIn {toLex (1, 1)} sampleMissingRun := by
    intro op hop v hv
    simp only [sampleMissingRun, List.mem_cons, reduceCtorEq, MissingAct.commit.injEq, List.not_mem_nil,
      or_false, false_or] at hop
    subst hop
    simp only [Op.delivered, Delivery.event, List.map_cons, List.map_nil, List.mem_singleton] at hv
    subst hv
    decide
  exact ⟨hrow, (missing_never_stranded sampleEnv {} {toLex (1, 1)} (by decide) sampleMissingRun
    hauthored).1 (by decide +kernel) (by decide +kernel) (by decide +kernel) (by decide +kernel) _
    hrow⟩

end Sample

end Rostra.Client
