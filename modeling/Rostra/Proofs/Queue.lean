/-
# The fetch queue

The schedule and the `Missing` states are two copies of one timestamp.  `QueueExact` says that they
agree: a row `(t, e)` is there exactly when `e` is `Missing` with slot `t`.  Seven operations write
one or both copies; the one stretch where they disagree is inside an envelope transaction, between
an insertion that found the bytes already stored and the row that `ensure_missing_scheduled_tx` adds
at its end (`QueueButFor`).

The rows of the schedule are what the fetching worker sees, and the states are what everybody else sees. A row
without its state would be fetched for nothing, and a state without its row would never be fetched, so both
directions are needed.

The slot in the state is what makes it possible to find the row again: a row is erased by its slot and its event,
and the event alone would not do. It also serves as a token: a worker that reports about a slot which has moved on
changes nothing.
-/
import Rostra.Proofs.Progress

namespace Rostra.Db

open Rostra Outcome

/-! ## 1. The two copies agree

The two directions are stated apart, since one of them is broken for a while. -/

/-- Every row belongs to `Missing` content, at its slot. -/
def QueueSound (t : EventTables) : Prop :=
  ∀ n id, toLex (n, id) ∈ t.eventsContentMissing → slot? (t.eventsContentState.get id) = some n

/-- Every `Missing` content has its row, one event possibly apart. -/
def QueueComplete (skip : Option ShortEventId) (t : EventTables) : Prop :=
  ∀ n id, skip ≠ some id → slot? (t.eventsContentState.get id) = some n →
    toLex (n, id) ∈ t.eventsContentMissing

def QueueButFor (id : ShortEventId) (t : EventTables) : Prop :=
  QueueSound t ∧ QueueComplete (some id) t

/-- **The queue is exact.** -/
def QueueExact (t : EventTables) : Prop := QueueSound t ∧ QueueComplete none t

theorem QueueExact.butFor {t : EventTables} (h : QueueExact t) (id : ShortEventId) :
    QueueButFor id t :=
  ⟨h.1, fun n id' _ hn => h.2 n id' (by simp) hn⟩

theorem queueExact_empty : QueueExact {} := by
  refine ⟨fun n id h => ?_, fun n id _ h => ?_⟩
  · simp at h
  · simp [slot?] at h

/-- The row that `unscheduleTx` erases is the one of the slot. -/
theorem mem_unscheduleTx {s : Option EventContentState} {id : ShortEventId}
    {q : Finset (Timestamp ×ₗ ShortEventId)} {n : Timestamp} {id' : ShortEventId} :
    toLex (n, id') ∈ unscheduleTx s id q ↔
      toLex (n, id') ∈ q ∧ ¬(id' = id ∧ slot? s = some n) := by
  unfold unscheduleTx
  split
  · next last count next =>
    simp only [Finset.mem_erase, ne_eq, EmbeddingLike.apply_eq_iff_eq, Prod.mk.injEq, slot?,
      Option.some.injEq]
    constructor
    · rintro ⟨hne, hq⟩
      exact ⟨hq, fun h => hne ⟨h.2.symm, h.1⟩⟩
    · rintro ⟨hq, hne⟩
      exact ⟨fun h => hne ⟨h.2, h.1.symm⟩, hq⟩
  · next hns =>
    have hnone : slot? s = none := by
      unfold slot?
      split
      · next last count next => exact absurd rfl (hns last count next)
      · rfl
    simp [hnone]

/-- An event leaves `Missing`, and its row leaves the queue. -/
theorem queue_leave {t t' : EventTables} {id : ShortEventId} {new : Option EventContentState}
    {skip : Option ShortEventId} (hs : QueueSound t) (hc : QueueComplete skip t)
    (hm : Moves t t' id new) (hnew : slot? new = none)
    (hq : t'.eventsContentMissing =
      unscheduleTx (t.eventsContentState.get id) id t.eventsContentMissing) :
    QueueSound t' ∧ QueueComplete skip t' := by
  constructor
  · intro n id' hrow
    rw [hq, mem_unscheduleTx] at hrow
    have hslot := hs n id' hrow.1
    by_cases hid : id' = id
    · exact absurd ⟨hid, by rw [← hid]; exact hslot⟩ hrow.2
    · rw [hm.other id' hid]
      exact hslot
  · intro n id' hskip hslot
    by_cases hid : id' = id
    · rw [hid, hm.self, hnew] at hslot
      cases hslot
    · rw [hm.other id' hid] at hslot
      rw [hq, mem_unscheduleTx]
      exact ⟨hc n id' hskip hslot, fun h => hid h.1⟩

/-! ## 2. The operations

The copies are written one after the other, by the same function or by two of them. -/

theorem PruneEffect.queue {t t' : EventTables} {id : ShortEventId} {skip : Option ShortEventId}
    (h : PruneEffect t id t') (hs : QueueSound t) (hc : QueueComplete skip t) :
    QueueSound t' ∧ QueueComplete skip t' := by
  cases h with
  | kept _ h =>
    rw [h]
    exact ⟨hs, hc⟩
  | pruned _ rc u h =>
    subst h
    exact queue_leave hs hc (moves_insert id .pruned rfl rfl) rfl rfl

/-- Scheduling an event completes the queue for it. -/
theorem ensureMissingScheduledTx_exact {t : EventTables} {id : ShortEventId}
    (h : QueueButFor id t) : QueueExact (ensureMissingScheduledTx t id) := by
  unfold ensureMissingScheduledTx
  split
  · next last count next hst =>
    have hslot : slot? (t.eventsContentState.get id) = some next := by rw [hst]; rfl
    refine ⟨fun n id' hrow => ?_, fun n id' _ hn => ?_⟩
    · simp only [Finset.mem_insert, EmbeddingLike.apply_eq_iff_eq, Prod.mk.injEq] at hrow
      rcases hrow with ⟨rfl, rfl⟩ | hrow
      · exact hslot
      · exact h.1 n id' hrow
    · simp only [Finset.mem_insert, EmbeddingLike.apply_eq_iff_eq, Prod.mk.injEq]
      by_cases hid : id' = id
      · refine .inl ⟨?_, hid⟩
        subst hid
        exact Option.some.inj (hn.symm.trans hslot)
      · exact .inr (h.2 n id' (fun he => hid (Option.some.inj he).symm) hn)
  · next hns =>
    refine ⟨h.1, fun n id' _ hn => h.2 n id' (fun he => ?_) hn⟩
    cases he
    obtain ⟨last, count, hst⟩ := slot?_eq_some.mp hn
    exact hns last count n hst

/-- Rescheduling moves both copies. -/
theorem rescheduleTx_exact {t : EventTables} (h : QueueExact t) (id : ShortEventId)
    (observed next : Timestamp) (update : Option Timestamp → ℕ → Option Timestamp × ℕ) :
    QueueExact (rescheduleTx t id observed next update) := by
  rcases rescheduleTx_effect t id observed next update with heq |
    ⟨_, _, last', count', current, hs, -, -, heq⟩
  · rw [heq]
    exact h
  · have hslot : slot? (t.eventsContentState.get id) = some current := by rw [hs]; rfl
    rw [heq]
    refine ⟨fun n id' hrow => ?_, fun n id' _ hn => ?_⟩
    · simp only [Finset.mem_insert, Finset.mem_erase, ne_eq, EmbeddingLike.apply_eq_iff_eq,
        Prod.mk.injEq] at hrow
      rcases hrow with ⟨rfl, rfl⟩ | ⟨hne, hrow⟩
      · simp [slot?]
      · have hn := h.1 n id' hrow
        have hid : id' ≠ id := by
          rintro rfl
          exact hne ⟨Option.some.inj (hn.symm.trans hslot), rfl⟩
        simp only [Table.get_insert_of_ne _ _ hid]
        exact hn
    · simp only [Finset.mem_insert, Finset.mem_erase, ne_eq, EmbeddingLike.apply_eq_iff_eq,
        Prod.mk.injEq]
      by_cases hid : id' = id
      · subst hid
        simp only [Table.get_insert_self, slot?, Option.some.injEq] at hn
        exact .inl ⟨hn.symm, rfl⟩
      · simp only [Table.get_insert_of_ne _ _ hid] at hn
        exact .inr ⟨fun hc => hid hc.2, h.2 n id' (by simp) hn⟩

/-- **The front row of an exact queue is consistent**, so looking at it removes nothing. -/
theorem peekNextMissingContent_eq {t : EventTables} (h : QueueSound t) (hs : StatesStored t) :
    (peekNextMissingContent t).1 = t := by
  unfold peekNextMissingContent peekLoop
  split
  · rfl
  · next row hrow =>
    have hslot := h (ofLex row).1 (ofLex row).2 (Table.least_mem hrow)
    obtain ⟨last, count, hst⟩ := slot?_eq_some.mp hslot
    obtain ⟨e, he⟩ := hs _ _ hst
    simp only [hst, he, if_true]

section Queue

variable [Primitives]

theorem InsertEffect.queue {t : EventTables} {v : VerifiedEvent}
    {r : EventTables × InsertEventOutcome} (h : InsertEffect t v r) (hq : QueueExact t)
    (hs : StatesStored t) : QueueButFor v.id r.1 := by
  cases h with
  | present e he hreg ht ho =>
    rw [ht]
    exact hq.butFor v.id
  | new hnew hreg wm isD dp rev mp h ho =>
    have hold : ∀ n id, toLex (n, id) ∈ unscheduleParent t dp ↔
        toLex (n, id) ∈ t.eventsContentMissing ∧ dp ≠ some id := by
      intro n id
      cases dp with
      | none => simp [unscheduleParent]
      | some p =>
        rw [unscheduleParent, mem_unscheduleTx]
        refine and_congr_right fun hrow => not_congr ⟨fun hp => by rw [hp.1], fun hp => ?_⟩
        cases hp
        exact ⟨rfl, hq.1 n _ hrow⟩
    refine ⟨fun n id hrow => ?_, fun n id hskip hn => ?_⟩
    · -- a new row is the one of the fresh state; an old one is still `Missing`
      have hcase : (n = 0 ∧ id = v.id ∧ isD = false ∧ 0 < v.event.contentLen) ∨
          (toLex (n, id) ∈ t.eventsContentMissing ∧ dp ≠ some id) := by
        rw [h.queue] at hrow
        split at hrow
        · next hc =>
          rcases Finset.mem_insert.mp hrow with heq | hrow
          · simp only [EmbeddingLike.apply_eq_iff_eq, Prod.mk.injEq] at heq
            exact .inl ⟨heq.1, heq.2, hc.1, hc.2.1⟩
          · exact .inr ((hold n id).mp hrow)
        · exact .inr ((hold n id).mp hrow)
      rcases hcase with ⟨rfl, rfl, hd, hlen⟩ | ⟨hrow, hdp⟩
      · have hself := h.state_self
        rw [hd, if_neg Bool.false_ne_true, if_pos hlen] at hself
        rw [hself]
        rfl
      · have hslot := hq.1 n id hrow
        have hid : id ≠ v.id := by
          rintro rfl
          rw [hs.state_none hnew] at hslot
          cases hslot
        rw [h.state_other id hid hdp]
        exact hslot
    · have hid : id ≠ v.id := fun he => hskip (by rw [he])
      have hdp : dp ≠ some id := by
        intro hdp
        obtain ⟨d, hd⟩ := h.state_parent id hdp
        rw [hd] at hn
        cases hn
      rw [h.state_other id hid hdp] at hn
      have hrow := (hold n id).mpr ⟨hq.2 n id (by simp) hn, hdp⟩
      rw [h.queue]
      split
      · exact Finset.mem_insert_of_mem hrow
      · exact hrow

/-- **Every transaction keeps the queue exact.** -/
theorem queueExact_keeps (D : Set VerifiedEvent) :
    Keeps D Anything AnythingMid QueueExact (fun v => QueueButFor v.id) (fun _ => True) where
  insert t v _ hg _ h :=
    (insertEventTx_effect t v).mono (fun _ hr => hr.queue h hg.states) fun _ h => h
  settle t v _ _ _ h :=
    (pruneEventContentTx_effect t v.id v.event).mono (fun _ hr => hr.queue h.1 h.2) fun _ h => h
  schedule t v _ _ _ _ h := ensureMissingScheduledTx_exact h
  prune t id e _ _ _ h :=
    (pruneEventContentTx_effect t id e).mono (fun _ hr => hr.queue h.1 h.2) fun _ h => h
  store t c b _ _ _ _ _ h := by
    refine (storeContentTx_effect _ _ b).mono (fun t' ht' => ?_) fun _ h => h
    obtain ⟨u, rfl⟩ := ht'
    exact queue_leave h.1 h.2 (moves_remove c.event.id rfl rfl) rfl rfl
  reject t c _ _ _ _ h := by
    refine (rejectContentTx_effect _ _).mono (fun t' ht' => ?_) fun _ h => h
    obtain ⟨rc, u, rfl⟩ := ht'
    exact queue_leave h.1 h.2 (moves_insert c.event.id .invalid rfl rfl) rfl
      rfl
  collect t k _ _ _ h := h
  defer t id _ _ h := ensureMissingScheduledTx_exact (h.butFor id)
  reschedule t id o n u _ _ h := rescheduleTx_exact h id o n u
  peek t hg _ h := by
    rw [peekNextMissingContent_eq h.1 hg.states]
    exact h
  other _ _ := trivial

/-! ## 3. Stale completions

A worker reports on a slot that it has seen. In the meantime the row may have moved, and its report is then
ignored. -/

omit [Primitives] in
/-- The observed slot is a compare-and-set token. -/
theorem rescheduleTx_stale {t : EventTables} {id : ShortEventId} {n observed next : Timestamp}
    {update : Option Timestamp → ℕ → Option Timestamp × ℕ}
    (hn : slot? (t.eventsContentState.get id) = some n) (hne : observed ≠ n) :
    rescheduleTx t id observed next update = t := by
  obtain ⟨last, count, hst⟩ := slot?_eq_some.mp hn
  simp [rescheduleTx, hst, hne.symm]

/-- **The fetch queue is exact after every transaction.**  Each row is a `Missing` event at its
slot; looking at the front removes nothing; while an event is `Missing`, its row changes only to a
strictly later slot; and a completion that observed another slot has no effect. -/
theorem eventsContentMissing_exact (env : Env) {D : Set VerifiedEvent} (hcf : CollisionFree D)
    (ops : List Op) (hD : DeliveredFrom D ops) :
    let t := (reached env ops).ev
    (∀ n id, toLex (n, id) ∈ t.eventsContentMissing ↔
        ∃ e last count, t.events.get id = some e ∧
          t.eventsContentState.get id = some (.missing last count n)) ∧
      (peekNextMissingContent t).1 = t ∧
      (∀ ops' id last count n, DeliveredFrom D ops' →
        t.eventsContentState.get id = some (.missing last count n) →
        ∀ last' count' n', (reached env (ops ++ ops')).ev.eventsContentState.get id =
          some (.missing last' count' n') →
            n < n' ∨ (last' = last ∧ count' = count ∧ n' = n)) ∧
      ∀ id last count n observed, t.eventsContentState.get id = some (.missing last count n) →
        observed ≠ n → ∀ next attemptedAt,
          step env (reached env ops) (.deferFetch id observed next) = .ok (reached env ops) ∧
          step env (reached env ops) (.recordFailedFetch id observed attemptedAt next) =
            .ok (reached env ops) := by
  obtain ⟨hg, hq⟩ := reached_keeps env (queueExact_keeps D) hcf queueExact_empty ops hD
  refine ⟨fun n id => ⟨fun hrow => ?_, fun h => ?_⟩, peekNextMissingContent_eq hq.1 hg.states,
    fun ops' id last count n hD' hn last' count' n' hn' => ?_,
    fun id last count n observed hn hne next attemptedAt => ⟨?_, ?_⟩⟩
  · obtain ⟨last, count, hst⟩ := slot?_eq_some.mp (hq.1 n id hrow)
    obtain ⟨e, he⟩ := hg.states _ _ hst
    exact ⟨e, last, count, he, hst⟩
  · obtain ⟨e, last, count, -, hst⟩ := h
    exact hq.2 n id (by simp) (slot?_eq_some.mpr ⟨last, count, hst⟩)
  · have hlater := reached_later env hcf ops ops' fun o ho =>
      (List.mem_append.mp ho).elim (hD o) (hD' o)
    obtain ⟨e, he⟩ := hg.states _ _ hn
    obtain ⟨m, hm, hlt | heq⟩ := hlater.missing id e n' he (slot?_eq_some.mpr ⟨last', count', hn'⟩)
    · rw [hn] at hm
      exact .inl ((Option.some.inj hm).trans_lt hlt)
    · rw [hn, hn'] at heq
      cases heq
      exact .inr ⟨rfl, rfl, rfl⟩
  · show Except.ok _ = _
    rw [deferContentFetch, rescheduleTx_stale (slot?_eq_some.mpr ⟨last, count, hn⟩) hne]
  · show Except.ok _ = _
    rw [recordFailedContentFetch, rescheduleTx_stale (slot?_eq_some.mpr ⟨last, count, hn⟩) hne]

end Queue

section Sample

attribute [local instance] Primitives.reference

/-- One event is awaited, and looking at the front of the queue removes nothing. -/
theorem eventsContentMissing_exact_sampleRun :
    (reached sampleEnv sampleRun).ev.eventsContentMissing = {toLex (0, 2)} ∧
      (peekNextMissingContent (reached sampleEnv sampleRun).ev).1 = (reached sampleEnv sampleRun).ev :=
  ⟨by decide +kernel, (eventsContentMissing_exact sampleEnv sampleRun_collisionFree sampleRun
    (deliveredFrom_envelopesOf sampleRun)).2.1⟩

end Sample

end Rostra.Db
