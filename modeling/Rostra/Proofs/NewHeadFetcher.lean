/-
# No head is lost

An author is looked after in one of three ways: it is pending, a signal about it is still to be read
(`Signalled`), or the main loop will come to it (`Planned`).  Every step of the world passes an author on
from one of these to another, until a worker takes it.

* Section 1: the queue.  What a step does to it is one of four things (`QueueStep`), from which follow
  that leases exclude each other and that nothing leaves the pending set but by being taken.
* Section 2: what the main loop has planned, in each place it can be.
* Section 3: the steps of the main loop, then those of everything around it.

The channels of the task lose messages by design: a receiver that lags is told so, and has to look at the tables
again. So an author is not tracked through a message but through the promise that the tables will be read; that
promise is `Planned`, and it is stated for every place of the main loop, in the middle of a page as well.
-/
import Rostra.Client.NewHeadFetcher
import Rostra.Proofs.Publisher

namespace Rostra.Client

open Rostra Db Outcome

/-! ## 1. The queue

An author is pending, leased by a worker, or both. The two sets are bounded together, and an author that does not
fit stops the main loop where it is instead of being dropped. -/

/-- What `try_enqueue` does. -/
theorem WorkQueue.tryEnqueue_cases (q : WorkQueue) (id : RostraId) :
    (q.tryEnqueue id = (q, true) ∧ id ∈ q.pending) ∨
    (q.tryEnqueue id = (q, false) ∧ id ∉ q.pending) ∨
    (q.tryEnqueue id = ({ q with pending := insert id q.pending }, true) ∧ id ∉ q.pending ∧
      q.pending.card < MAX_PENDING_AUTHORS) := by
  unfold WorkQueue.tryEnqueue
  split
  · next h => exact .inl ⟨rfl, h⟩
  · next h =>
    split
    · exact .inr (.inl ⟨rfl, h⟩)
    · next hroom => exact .inr (.inr ⟨rfl, h, Nat.lt_of_not_le hroom⟩)

/-- What a step does to the queue and its leases. -/
inductive QueueStep (w w' : HeadWorld) : List HeadLabel → Prop
  | same (pending : w'.queue.pending = w.queue.pending)
      (inProgress : w'.queue.inProgress = w.queue.inProgress) (workers : w'.workers = w.workers)
      {shown : List HeadLabel} (fresh : ∀ l ∈ shown, ∃ s, l = .fresh s) : QueueStep w w' shown
  | enqueued (author : RostraId) (pending : w'.queue.pending = insert author w.queue.pending)
      (room : w.queue.pending.card ≤ MAX_PENDING_AUTHORS → w'.queue.pending.card ≤ MAX_PENDING_AUTHORS)
      (inProgress : w'.queue.inProgress = w.queue.inProgress) (workers : w'.workers = w.workers) :
      QueueStep w w' [.enqueued author]
  | took (worker : ℕ) (author : RostraId) (idle : w.workers[worker]? = some none)
      (mem : author ∈ w.queue.pending) (free : author ∉ w.queue.inProgress)
      (pending : w'.queue.pending = w.queue.pending.erase author)
      (inProgress : w'.queue.inProgress = insert author w.queue.inProgress)
      (workers : w'.workers = w.workers.set worker (some author)) :
      QueueStep w w' [.took worker author]
  | released (worker : ℕ) (author : RostraId) (held : w.workers[worker]? = some (some author))
      (pending : w'.queue.pending = w.queue.pending)
      (inProgress : w'.queue.inProgress = w.queue.inProgress.erase author)
      (workers : w'.workers = w.workers.set worker none) : QueueStep w w' [.released worker author]

/-- How `try_enqueue` lets the loop go on. -/
theorem HeadWorld.enqueue_cases {w w' : HeadWorld} {author : RostraId}
    {onSuccess onFailure : HeadWorld → HeadWorld} {shown : List HeadLabel}
    (h : w.enqueue author onSuccess onFailure = (w', shown)) :
    (∃ q : WorkQueue, q.pending = insert author w.queue.pending ∧
      (w.queue.pending.card ≤ MAX_PENDING_AUTHORS → q.pending.card ≤ MAX_PENDING_AUTHORS) ∧
      q.inProgress = w.queue.inProgress ∧ w' = onSuccess { w with queue := q } ∧
      shown = [.enqueued author]) ∨
    (w' = onFailure w ∧ shown = []) := by
  unfold HeadWorld.enqueue at h
  rcases w.queue.tryEnqueue_cases author with ⟨heq, hin⟩ | ⟨heq, -⟩ | ⟨heq, hnew, hroom⟩
  · rw [heq] at h
    cases h
    exact .inl ⟨w.queue, (Finset.insert_eq_of_mem hin).symm, fun hc => hc, rfl, rfl, rfl⟩
  · rw [heq] at h
    cases h
    exact .inr ⟨rfl, rfl⟩
  · rw [heq] at h
    cases h
    refine .inl ⟨{ w.queue with pending := insert author w.queue.pending }, rfl, fun _ => ?_, rfl, rfl,
      rfl⟩
    rw [Finset.card_insert_of_notMem hnew]
    exact hroom

/-- A step that only moves the loop. -/
theorem QueueStep.quiet {w w' : HeadWorld} (queue : w'.queue = w.queue)
    (workers : w'.workers = w.workers) : QueueStep w w' [] :=
  .same (by rw [queue]) (by rw [queue]) workers (by simp)

theorem QueueStep.announced {w w' : HeadWorld} (queue : w'.queue = w.queue)
    (workers : w'.workers = w.workers) (authors : Finset RostraId) :
    QueueStep w w' [.fresh authors] :=
  .same (by rw [queue]) (by rw [queue]) workers fun l hl => ⟨authors, List.mem_singleton.mp hl⟩

/-- A call of `try_enqueue` that the loop goes on from without touching the queue. -/
theorem QueueStep.enqueue {w w' : HeadWorld} {author : RostraId}
    {onSuccess onFailure : HeadWorld → HeadWorld} {shown : List HeadLabel}
    (h : w.enqueue author onSuccess onFailure = (w', shown))
    (hsuccess : ∀ w, (onSuccess w).queue = w.queue ∧ (onSuccess w).workers = w.workers)
    (hfailure : (onFailure w).queue = w.queue ∧ (onFailure w).workers = w.workers) :
    QueueStep w w' shown := by
  rcases HeadWorld.enqueue_cases h with ⟨q, hpending, hroom, hprogress, rfl, rfl⟩ | ⟨rfl, rfl⟩
  · obtain ⟨hq, hw⟩ := hsuccess { w with queue := q }
    refine .enqueued author ?_ ?_ ?_ hw
    · rw [hq]
      exact hpending
    · rw [hq]
      exact hroom
    · rw [hq]
      exact hprogress
  · exact .quiet hfailure.1 hfailure.2

theorem HeadWorld.reconcile_queue (w : HeadWorld) :
    w.reconcile.queue = w.queue ∧ w.reconcile.workers = w.workers := by
  unfold HeadWorld.reconcile
  split
  · exact ⟨rfl, rfl⟩
  · exact ⟨rfl, rfl⟩

theorem HeadWorld.go_queue {selfId : RostraId} {w w' : HeadWorld} {shown : List HeadLabel}
    (h : w.go selfId = some (w', shown)) : QueueStep w w' shown := by
  unfold HeadWorld.go at h
  split at h
  · cases h
    exact .quiet rfl rfl
  · split at h
    · cases h
      exact .quiet rfl rfl
    · cases h
      exact .quiet rfl rfl
  · -- the author of a head
    have hrefused : w.headRefused.queue = w.queue ∧ w.headRefused.workers = w.workers := by
      unfold HeadWorld.headRefused
      split
      · exact ⟨rfl, rfl⟩
      · exact ⟨rfl, rfl⟩
    exact .enqueue (Option.some.inj h) (fun _ => ⟨rfl, rfl⟩) hrefused
  · cases h
    exact .quiet rfl rfl
  · split at h
    · cases h
      exact .quiet (HeadWorld.reconcile_queue _).1 (HeadWorld.reconcile_queue _).2
    · cases h
  · -- a newly admitted author
    exact .enqueue (Option.some.inj h) (fun _ => ⟨rfl, rfl⟩) (HeadWorld.reconcile_queue _)
  · cases h
    exact .quiet rfl rfl
  · cases h
    exact .quiet rfl rfl
  · split at h
    · next scan _ _ _ _ =>
      cases h
      cases scan with
      | anew => exact .quiet rfl rfl
      | resumed =>
        unfold HeadWorld.complete
        dsimp only
        split
        · exact .quiet rfl rfl
        · exact .quiet rfl rfl
    · cases h
      exact .quiet rfl rfl
  · -- an author of a page
    split at h
    · exact .enqueue (Option.some.inj h) (fun _ => ⟨rfl, rfl⟩) ⟨rfl, rfl⟩
    · cases h
      exact .quiet rfl rfl
  · cases h
  · cases h

theorem HeadWorld.hear_queue (selfId : RostraId) (w : HeadWorld) (s : Signal) (p : Publisher) :
    QueueStep w (w.hear selfId s p).1 (w.hear selfId s p).2 := by
  cases s with
  | newHead author id => exact .quiet rfl rfl
  | publish value =>
    cases value with
    | wot value =>
      refine .announced ?_ ?_ _
      · rfl
      · rfl
    | _ => exact .quiet rfl rfl
  | _ => exact .quiet rfl rfl

section Steps

variable [Primitives] {env : Env} {w w' : HeadWorld} {shown : List HeadLabel}

theorem HeadWorld.step_queue {a : HeadAct} (h : w.step env a = some (w', shown)) :
    QueueStep w w' shown := by
  cases a with
  | commit op =>
    simp only [HeadWorld.step, Option.map_eq_some_iff] at h
    obtain ⟨p, -, h⟩ := h
    cases h
    refine .announced ?_ ?_ _
    · rfl
    · rfl
  | hook =>
    simp only [HeadWorld.step, Option.map_eq_some_iff] at h
    obtain ⟨r, -, h⟩ := h
    have hheard := HeadWorld.hear_queue env.selfId w r.1 r.2
    rw [h] at hheard
    exact hheard
  | take worker =>
    simp only [HeadWorld.step] at h
    split at h
    · next author queue hidle htake =>
      cases h
      unfold WorkQueue.takeWork at htake
      rw [Option.map_eq_some_iff] at htake
      obtain ⟨id, hleast, hq⟩ := htake
      cases hq
      obtain ⟨hmem, hfree⟩ := Finset.mem_sdiff.mp (Table.least_mem hleast)
      exact .took worker author hidle hmem hfree rfl rfl rfl
    · cases h
  | release worker =>
    simp only [HeadWorld.step] at h
    split at h
    · next author hheld =>
      cases h
      exact .released worker author hheld rfl rfl rfl
    · cases h
  | recvHead =>
    simp only [HeadWorld.step, Option.ite_none_right_eq_some, Option.map_eq_some_iff] at h
    obtain ⟨-, ⟨result, r⟩, -, h⟩ := h
    cases result with
    | ok v =>
      cases h
      exact .quiet rfl rfl
    | error n =>
      cases h
      exact .quiet (HeadWorld.reconcile_queue _).1 (HeadWorld.reconcile_queue _).2
  | wotChanged =>
    simp only [HeadWorld.step, Option.ite_none_right_eq_some] at h
    cases h.2
    exact .quiet rfl rfl
  | spaceAvailable =>
    simp only [HeadWorld.step, Option.ite_none_right_eq_some] at h
    cases h.2
    refine .same ?_ ?_ ?_ ?_
    · rfl
    · rfl
    · rfl
    · simp
  | leave =>
    simp only [HeadWorld.step, Option.ite_none_right_eq_some] at h
    cases h.2
    exact .quiet rfl rfl
  | examine author =>
    simp only [HeadWorld.step] at h
    split at h
    · split at h
      · split at h
        · cases h
          exact .quiet rfl rfl
        · cases h
          exact .quiet rfl rfl
      · cases h
    · cases h
  | go => exact HeadWorld.go_queue h

end Steps

/-- **The queue and its leases.** An author that a worker has is in progress, no author is leased to two of them,
and the queue stays within its bound. -/
structure HeadWorld.Leased (w : HeadWorld) : Prop where
  bounded : w.queue.pending.card ≤ MAX_PENDING_AUTHORS
  held : ∀ (i : ℕ) (a : RostraId), w.workers[i]? = some (some a) → a ∈ w.queue.inProgress
  once : ∀ (i j : ℕ) (a : RostraId), w.workers[i]? = some (some a) → w.workers[j]? = some (some a) →
    i = j

theorem leased_start (p : Publisher) : ({ publisher := p } : HeadWorld).Leased := by
  refine ⟨Nat.zero_le _, fun i a hi => ?_, fun i j a hi => ?_⟩
  · simp [List.getElem?_replicate] at hi
  · simp [List.getElem?_replicate] at hi

theorem HeadWorld.Leased.step {w w' : HeadWorld} {shown : List HeadLabel} (h : w.Leased)
    (hstep : QueueStep w w' shown) : w'.Leased := by
  cases hstep with
  | same pending inProgress workers fresh =>
    refine ⟨by rw [pending]; exact h.bounded, fun i a hi => ?_, fun i j a hi hj => ?_⟩
    · rw [inProgress]
      exact h.held i a (workers ▸ hi)
    · exact h.once i j a (workers ▸ hi) (workers ▸ hj)
  | enqueued author pending room inProgress workers =>
    refine ⟨room h.bounded, fun i a hi => ?_, fun i j a hi hj => ?_⟩
    · rw [inProgress]
      exact h.held i a (workers ▸ hi)
    · exact h.once i j a (workers ▸ hi) (workers ▸ hj)
  | took worker author idle mem free pending inProgress workers =>
    -- the new lease is of an author that nobody had
    have hlease : ∀ (i : ℕ) (a : RostraId), w'.workers[i]? = some (some a) →
        (i = worker ∧ a = author) ∨ (i ≠ worker ∧ w.workers[i]? = some (some a)) := by
      intro i a hi
      rw [workers, List.getElem?_set] at hi
      split at hi
      · next heq =>
        split at hi
        · cases hi
          exact .inl ⟨heq.symm, rfl⟩
        · cases hi
      · next hne => exact .inr ⟨fun heq => hne heq.symm, hi⟩
    refine ⟨?_, fun i a hi => ?_, fun i j a hi hj => ?_⟩
    · rw [pending]
      exact (Finset.card_erase_le).trans h.bounded
    · rw [inProgress]
      rcases hlease i a hi with ⟨-, rfl⟩ | ⟨-, hold⟩
      · exact Finset.mem_insert_self _ _
      · exact Finset.mem_insert_of_mem (h.held i a hold)
    · rcases hlease i a hi with ⟨rfl, rfl⟩ | ⟨-, hold⟩
      · rcases hlease j a hj with ⟨rfl, -⟩ | ⟨-, hold⟩
        · rfl
        · exact absurd (h.held j a hold) free
      · rcases hlease j a hj with ⟨-, rfl⟩ | ⟨-, hold'⟩
        · exact absurd (h.held i a hold) free
        · exact h.once i j a hold hold'
  | released worker author held pending inProgress workers =>
    have hlease : ∀ (i : ℕ) (a : RostraId), w'.workers[i]? = some (some a) →
        i ≠ worker ∧ w.workers[i]? = some (some a) := by
      intro i a hi
      rw [workers, List.getElem?_set] at hi
      split at hi
      · split at hi
        · cases hi
        · cases hi
      · next hne => exact ⟨fun heq => hne heq.symm, hi⟩
    refine ⟨by rw [pending]; exact h.bounded, fun i a hi => ?_, fun i j a hi hj =>
      h.once i j a (hlease i a hi).2 (hlease j a hj).2⟩
    obtain ⟨hne, hold⟩ := hlease i a hi
    rw [inProgress]
    refine Finset.mem_erase_of_ne_of_mem ?_ (h.held i a hold)
    rintro rfl
    exact hne (h.once i worker a hold held)

/-- **What was enqueued stays pending until it is taken.** Taking is shown, so the trace tells. -/
def EnqueuedKept (w : HeadWorld) (trace : List HeadLabel) : Prop :=
  ∀ before after a, trace = before ++ .enqueued a :: after →
    (∃ worker, .took worker a ∈ after) ∨ a ∈ w.queue.pending

theorem EnqueuedKept.step {w w' : HeadWorld} {trace shown : List HeadLabel}
    (h : EnqueuedKept w trace) (hstep : QueueStep w w' shown) :
    EnqueuedKept w' (trace ++ shown) := by
  have hkeep : ∀ a ∈ w.queue.pending, (∃ worker, .took worker a ∈ shown) ∨ a ∈ w'.queue.pending := by
    intro a ha
    cases hstep with
    | same pending _ _ _ => exact .inr (pending ▸ ha)
    | enqueued author pending _ _ _ =>
      rw [pending]
      exact .inr (Finset.mem_insert_of_mem ha)
    | took worker author idle mem free pending _ _ =>
      by_cases haa : a = author
      · subst haa
        exact .inl ⟨worker, List.mem_singleton_self _⟩
      · rw [pending]
        exact .inr (Finset.mem_erase_of_ne_of_mem haa ha)
    | released worker author held pending _ _ => exact .inr (pending ▸ ha)
  intro before after a heq
  rcases List.append_eq_append_iff.mp heq with ⟨mid, hbefore, hshown⟩ | ⟨mid, htrace, hafter⟩
  · -- it was enqueued by this step
    cases hstep with
    | same _ _ _ fresh =>
      obtain ⟨s, hs⟩ := fresh (.enqueued a) (by rw [hshown]; simp)
      cases hs
    | enqueued author pending _ _ _ =>
      have ha : HeadLabel.enqueued a ∈ [HeadLabel.enqueued author] := by
        rw [hshown]
        simp
      cases List.mem_singleton.mp ha
      rw [pending]
      exact .inr (Finset.mem_insert_self _ _)
    | took worker author _ _ _ _ _ _ =>
      have ha : HeadLabel.enqueued a ∈ [HeadLabel.took worker author] := by
        rw [hshown]
        simp
      cases List.mem_singleton.mp ha
    | released worker author _ _ _ _ =>
      have ha : HeadLabel.enqueued a ∈ [HeadLabel.released worker author] := by
        rw [hshown]
        simp
      cases List.mem_singleton.mp ha
  · cases mid with
    | nil =>
      -- the same, at the border of the two parts
      simp only [List.nil_append] at hafter
      cases hstep with
      | same _ _ _ fresh =>
        obtain ⟨s, hs⟩ := fresh (.enqueued a) (by rw [← hafter]; simp)
        cases hs
      | enqueued author pending _ _ _ =>
        cases hafter
        rw [pending]
        exact .inr (Finset.mem_insert_self _ _)
      | took worker author _ _ _ _ _ _ => cases hafter
      | released worker author _ _ _ _ => cases hafter
    | cons l mid =>
      simp only [List.cons_append, List.cons.injEq] at hafter
      obtain ⟨rfl, rfl⟩ := hafter
      rcases h before mid a htrace with ⟨worker, htook⟩ | hpending
      · exact .inl ⟨worker, List.mem_append_left _ htook⟩
      · rcases hkeep a hpending with ⟨worker, htook⟩ | hpending
        · exact .inl ⟨worker, List.mem_append_right _ htook⟩
        · exact .inr hpending

/-! ## 2. What is planned

A scan goes through the authors in pages. It has either not come to an author yet, or the author is in the rest of
the page, or the scan has begun anew since; a scan that is stuck at a full queue has not lost its place. -/

/-- The scan has not come to the author. -/
def Beyond (cursor : Option RostraId) (a : RostraId) : Prop := ∀ c ∈ cursor, c < a

/-- The author is in the rest of the page, or behind its end. -/
def Ahead (cursor : Option RostraId) (authors : List RostraId) (reachedEnd : Bool) (a : RostraId) :
    Prop :=
  Beyond cursor a ∧ (a ∈ authors ∨ (reachedEnd = false ∧ ∀ x ∈ authors, x < a))

theorem Ahead.tail {cursor : Option RostraId} {author a : RostraId} {authors : List RostraId}
    {reachedEnd : Bool} (h : Ahead cursor (author :: authors) reachedEnd a)
    (hsorted : (author :: authors).Pairwise (· < ·)) (hne : a ≠ author) :
    Ahead (some author) authors reachedEnd a := by
  rcases h.2 with hmem | ⟨hend, hlt⟩
  · have hin := (List.mem_cons.mp hmem).resolve_left hne
    refine ⟨fun c hc => ?_, .inl hin⟩
    cases hc
    exact (List.pairwise_cons.mp hsorted).1 a hin
  · refine ⟨fun c hc => ?_, .inr ⟨hend, fun x hx => hlt x (List.mem_cons_of_mem _ hx)⟩⟩
    cases hc
    exact hlt author List.mem_cons_self

/-- A page holds what is beyond its cursor, or all that is behind it is behind its end. -/
theorem ahead_page {t : EventTables} {cursor : Option RostraId} {a : RostraId}
    (ha : a ∈ headAuthors t) (hbeyond : Beyond cursor a) :
    Ahead cursor (getIdsWithHeadsTx t cursor MAX_PENDING_AUTHORS)
      (decide ((getIdsWithHeadsTx t cursor MAX_PENDING_AUTHORS).length < MAX_PENDING_AUTHORS)) a := by
  refine ⟨hbeyond, ?_⟩
  rcases (Pages.isPage_pageAfter t.eventsHeads cursor MAX_PENDING_AUTHORS).full a ha hbeyond with
    hin | ⟨hlen, hlt⟩
  · exact .inl hin
  · exact .inr ⟨decide_eq_false (fun h => Nat.lt_irrefl _ (hlen ▸ h)), hlt⟩

/-- The scan that the loop is in. -/
def HeadPc.scan : HeadPc → Option Scan
  | .page scan | .read scan _ | .enqueuing scan _ _ _ => some scan
  | _ => none

/-- The authors of a page that are left. -/
def HeadPc.authors : HeadPc → List RostraId
  | .read _ authors | .enqueuing _ authors _ _ => authors
  | _ => []

/-- The web of trust that a page is compared with. -/
def HeadPc.snapshot : HeadPc → Option WotData
  | .enqueuing _ _ _ wot => some wot
  | _ => none

namespace HeadWorld

/-- A change of the web of trust is still to be seen. -/
def WotComing (w : HeadWorld) : Prop :=
  w.wotSeen = false ∨ ∃ s ∈ w.publisher.hooks, Signal.IsWot s

/-- A signal about the author is still to be read. -/
def Signalled (w : HeadWorld) (a : RostraId) : Prop :=
  (∃ id, w.newHeads.Holds (a, id)) ∨ (∃ id, .newHead a id ∈ w.publisher.hooks) ∨ w.WotComing

/-- The scan that is stuck will come to the author, or be followed by one that does. -/
def Deferred (w : HeadWorld) (a : RostraId) : Prop :=
  w.reconciliationPending = true ∧ (w.reconcileAgain = true ∨ Beyond w.reconcileCursor a)

/-- The main loop will come to the author. -/
def Planned (w : HeadWorld) (a : RostraId) : Prop :=
  match w.pc with
  | .waiting => w.Deferred a
  | .received author | .trusted author => a = author ∨ w.Deferred a
  | .page _ => w.reconcileAgain = true ∨ Beyond w.reconcileCursor a
  | .read _ authors =>
    w.reconcileAgain = true ∨
      Ahead w.reconcileCursor authors (decide (authors.length < MAX_PENDING_AUTHORS)) a
  | .enqueuing _ authors reachedEnd _ =>
    w.reconcileAgain = true ∨ Ahead w.reconcileCursor authors reachedEnd a
  | .start | .wotChanged | .admitting .. | .admitted .. | .stopped => True

/-- The tables trust the author. -/
def Trusts (env : Env) (w : HeadWorld) (a : RostraId) : Prop :=
  (readWatches env w.publisher.db).selfWot.contains a env.selfId = true

end HeadWorld

/-- The authors that were taken after their last head and their last admission. -/
def HeadLabel.serve (done : Finset RostraId) : HeadLabel → Finset RostraId
  | .fresh authors => done \ authors
  | .took _ author => insert author done
  | _ => done

def served (trace : List HeadLabel) : Finset RostraId := trace.foldl HeadLabel.serve ∅

theorem served_append (trace shown : List HeadLabel) :
    served (trace ++ shown) = shown.foldl HeadLabel.serve (served trace) := List.foldl_append

/-- **The invariant of the world.** For every author with heads that is trusted there is a reason to expect it in
the queue: a signal, a scan that will get to it, or a change of the web of trust that is still to be noticed. -/
structure HeadWorld.Sound (env : Env) (w : HeadWorld) (trace : List HeadLabel) : Prop where
  current : w.publisher.Current env
  again : w.reconcileAgain = true → w.reconciliationPending = true
  anew : w.pc.scan = some .anew → w.reconciliationPending = false
  sorted : w.pc.authors.Pairwise (· < ·)
  snapshot : ∀ wot, w.pc.snapshot = some wot → ∀ a, w.Trusts env a →
    wot.contains a env.selfId = true ∨ w.WotComing
  cared : ∀ a ∈ headAuthors w.publisher.db.ev, w.Trusts env a → a ∉ served trace →
    a ∈ w.queue.pending ∨ w.Signalled a ∨ w.Planned a

/-! ## 3. Every step passes authors on

The lemma for a step of the loop compares the plans before and after it, and says who was enqueued in between. -/

/-- A web of trust that does not show the author will be replaced. -/
theorem HeadWorld.Sound.untrusted {env : Env} {w : HeadWorld} {trace : List HeadLabel}
    (h : w.Sound env trace) {a : RostraId} (ha : w.Trusts env a) :
    w.wot.contains a env.selfId = true ∨ w.WotComing := by
  rcases h.current.selfWot with heq | hhook
  · exact .inl (by unfold HeadWorld.wot; rw [heq]; exact ha)
  · exact .inr (.inr hhook)

/-- A step of the main loop, as far as authors are concerned. -/
structure LoopStep (env : Env) (w w' : HeadWorld) : Prop where
  publisher : w'.publisher = w.publisher
  newHeads : w'.newHeads = w.newHeads
  wotSeen : w'.wotSeen = w.wotSeen
  pending : w.queue.pending ⊆ w'.queue.pending
  again : w'.reconcileAgain = true → w'.reconciliationPending = true
  anew : w'.pc.scan = some .anew → w'.reconciliationPending = false
  sorted : w'.pc.authors.Pairwise (· < ·)
  snapshot : ∀ wot, w'.pc.snapshot = some wot → w.pc.snapshot = some wot ∨ wot = w.wot
  planned : ∀ a ∈ headAuthors w.publisher.db.ev, w.Trusts env a → w.Planned a →
    a ∈ w'.queue.pending ∨ w.Signalled a ∨ w'.Planned a

/-- The labels of the main loop. -/
def Plain (shown : List HeadLabel) : Prop := shown = [] ∨ ∃ author, shown = [.enqueued author]

theorem HeadWorld.Sound.loop {env : Env} {w w' : HeadWorld} {trace shown : List HeadLabel}
    (h : w.Sound env trace) (hloop : LoopStep env w w') (hplain : Plain shown) :
    w'.Sound env (trace ++ shown) := by
  have hserved : served (trace ++ shown) = served trace := by
    rw [served_append]
    rcases hplain with rfl | ⟨author, rfl⟩
    · rfl
    · rfl
  have htrusts : ∀ a, w'.Trusts env a → w.Trusts env a := by
    intro a ha
    unfold HeadWorld.Trusts at *
    rwa [hloop.publisher] at ha
  have hcoming : w.WotComing → w'.WotComing := by
    unfold HeadWorld.WotComing
    rw [hloop.publisher, hloop.wotSeen]
    exact fun h => h
  have hsignalled : ∀ a, w.Signalled a → w'.Signalled a := by
    intro a ha
    unfold HeadWorld.Signalled at *
    rw [hloop.publisher, hloop.newHeads]
    rcases ha with ha | ha | ha
    · exact .inl ha
    · exact .inr (.inl ha)
    · exact .inr (.inr (hcoming ha))
  refine ⟨by rw [hloop.publisher]; exact h.current, hloop.again, hloop.anew, hloop.sorted,
    fun wot hwot a ha => ?_, fun a hauthor ha hserve => ?_⟩
  · rcases hloop.snapshot wot hwot with hold | rfl
    · exact (h.snapshot wot hold a (htrusts a ha)).imp id hcoming
    · exact (h.untrusted (htrusts a ha)).imp id hcoming
  · rw [hserved] at hserve
    rw [hloop.publisher] at hauthor
    rcases h.cared a hauthor (htrusts a ha) hserve with hp | hs | hp
    · exact .inl (hloop.pending hp)
    · exact .inr (.inl (hsignalled a hs))
    · rcases hloop.planned a hauthor (htrusts a ha) hp with hp | hs | hp
      · exact .inl hp
      · exact .inr (.inl (hsignalled a hs))
      · exact .inr (.inr hp)

section Loop

variable {env : Env} {w w' : HeadWorld} {trace shown : List HeadLabel}

/-- Once everything is to be reconciled, every author is planned. -/
theorem HeadWorld.reconcile_planned (w : HeadWorld) (a : RostraId) : w.reconcile.Planned a := by
  unfold HeadWorld.reconcile
  split
  · next hpending => exact ⟨hpending, .inl rfl⟩
  · exact .inr fun c hc => by cases hc

theorem HeadWorld.headRefused_planned (w : HeadWorld) (a : RostraId) : w.headRefused.Planned a := by
  unfold HeadWorld.headRefused
  split
  · next hpending => exact ⟨hpending, .inl rfl⟩
  · exact ⟨rfl, .inr nofun⟩

/-- Whatever the place, a loop that begins to reconcile all has taken a good step. -/
theorem LoopStep.reconcile {w₁ : HeadWorld} (hagain : w₁.reconcileAgain = true →
      w₁.reconciliationPending = true) (hpublisher : w₁.publisher = w.publisher)
    (hheads : w₁.newHeads = w.newHeads) (hseen : w₁.wotSeen = w.wotSeen)
    (hpending : w.queue.pending ⊆ w₁.queue.pending) : LoopStep env w w₁.reconcile := by
  have hplanned : ∀ a ∈ headAuthors w.publisher.db.ev, w.Trusts env a → w.Planned a →
      a ∈ w₁.reconcile.queue.pending ∨ w.Signalled a ∨ w₁.reconcile.Planned a :=
    fun a _ _ _ => .inr (.inr (w₁.reconcile_planned a))
  revert hplanned
  unfold HeadWorld.reconcile
  split
  · next hpend =>
    intro hplanned
    exact ⟨hpublisher, hheads, hseen, hpending, fun _ => hpend, nofun, .nil,
      nofun, hplanned⟩
  · next hpend =>
    intro hplanned
    exact ⟨hpublisher, hheads, hseen, hpending, hagain, fun _ => by simpa using hpend, .nil,
      nofun, hplanned⟩

/-- A step that leaves the flags alone and stays out of a scan. -/
theorem LoopStep.moved {pc : HeadPc} {q : WorkQueue} (h : w.Sound env trace)
    (hpending : w.queue.pending ⊆ q.pending) (hscan : pc.scan = none) (hauthors : pc.authors = [])
    (hsnapshot : pc.snapshot = none)
    (hplanned : ∀ a, w.Trusts env a → w.Planned a →
      a ∈ q.pending ∨ w.Signalled a ∨ { w with queue := q, pc := pc }.Planned a) :
    LoopStep env w { w with queue := q, pc := pc } where
  publisher := rfl
  newHeads := rfl
  wotSeen := rfl
  pending := hpending
  again := h.again
  anew := fun hs => by
    rw [show ({ w with queue := q, pc := pc } : HeadWorld).pc.scan = none from hscan] at hs
    cases hs
  sorted := by
    show pc.authors.Pairwise (· < ·)
    rw [hauthors]
    exact .nil
  snapshot := fun wot hw => by
    rw [show ({ w with queue := q, pc := pc } : HeadWorld).pc.snapshot = none from hsnapshot] at hw
    cases hw
  planned := fun a _ ha hp => hplanned a ha hp

/-- The author of a head. -/
theorem HeadWorld.Sound.go_trusted {author : RostraId} (h : w.Sound env trace)
    (hpc : w.pc = .trusted author)
    (hstep : w.enqueue author (fun w => { w with pc := .waiting }) HeadWorld.headRefused =
      (w', shown)) : LoopStep env w w' ∧ Plain shown := by
  rcases HeadWorld.enqueue_cases hstep with ⟨q, hq, -, -, rfl, rfl⟩ | ⟨rfl, rfl⟩
  · refine ⟨.moved h ?_ rfl rfl rfl fun a _ hp => ?_, .inr ⟨author, rfl⟩⟩
    · rw [hq]
      exact Finset.subset_insert _ _
    · unfold HeadWorld.Planned at hp
      rw [hpc] at hp
      rcases hp with rfl | hp
      · exact .inl (by rw [hq]; exact Finset.mem_insert_self _ _)
      · exact .inr (.inr hp)
  · refine ⟨?_, .inl rfl⟩
    have hplanned : ∀ a ∈ headAuthors w.publisher.db.ev, w.Trusts env a → w.Planned a →
        a ∈ w.headRefused.queue.pending ∨ w.Signalled a ∨ w.headRefused.Planned a :=
      fun a _ _ _ => .inr (.inr (w.headRefused_planned a))
    revert hplanned
    unfold HeadWorld.headRefused
    split
    · next hpend =>
      intro hplanned
      exact ⟨rfl, rfl, rfl, Finset.Subset.refl _, fun _ => hpend, nofun, .nil,
        nofun, hplanned⟩
    · intro hplanned
      exact ⟨rfl, rfl, rfl, Finset.Subset.refl _, fun _ => rfl, nofun, .nil,
        nofun, hplanned⟩

/-- The end of a scan. -/
theorem HeadWorld.Sound.go_complete {scan : Scan} {wot : WotData} (h : w.Sound env trace)
    (hpc : w.pc = .enqueuing scan [] true wot) : LoopStep env w (w.complete scan) := by
  have hnone : ∀ a, w.Planned a → w.reconcileAgain = true := by
    intro a hp
    unfold HeadWorld.Planned at hp
    rw [hpc] at hp
    rcases hp with hp | ⟨-, hp | ⟨hp, -⟩⟩
    · exact hp
    · cases hp
    · cases hp
  have hwaiting : w.reconcileAgain = false → LoopStep env w { w with
      reconcileCursor := none, reconciliationPending := false, pc := .waiting } := by
    intro hagain
    refine ⟨rfl, rfl, rfl, Finset.Subset.refl _, fun ha => ?_, nofun, .nil,
      nofun, fun a _ _ hp => ?_⟩
    · rw [show ({ w with reconcileCursor := none, reconciliationPending := false, pc := .waiting } :
        HeadWorld).reconcileAgain = false from hagain] at ha
      cases ha
    · rw [hnone a hp] at hagain
      cases hagain
  cases scan with
  | anew =>
    refine hwaiting ?_
    have hpending : w.reconciliationPending = false := h.anew (by rw [hpc]; rfl)
    cases hagain : w.reconcileAgain with
    | false => rfl
    | true =>
      rw [h.again hagain] at hpending
      cases hpending
  | resumed =>
    unfold HeadWorld.complete
    dsimp only
    split
    · exact ⟨rfl, rfl, rfl, Finset.Subset.refl _, nofun, fun _ => rfl, .nil,
        nofun, fun a _ _ _ => .inr (.inr (.inr nofun))⟩
    · next hagain => exact hwaiting (by simpa using hagain)

/-- An author of a page. -/
theorem HeadWorld.Sound.go_author {scan : Scan} {author : RostraId} {authors : List RostraId}
    {reachedEnd : Bool} {wot : WotData} (h : w.Sound env trace)
    (hpc : w.pc = .enqueuing scan (author :: authors) reachedEnd wot) :
    (∀ q : WorkQueue, w.queue.pending ⊆ q.pending →
      (author ∈ q.pending ∨ wot.contains author env.selfId = false) → LoopStep env w { w with
        queue := q
        reconcileCursor := some author
        pc := .enqueuing scan authors reachedEnd wot }) ∧
    LoopStep env w { w with reconciliationPending := true, pc := .waiting } := by
  have hsorted : (author :: authors).Pairwise (· < ·) := by
    have hs := h.sorted
    rw [hpc] at hs
    exact hs
  have hplan : ∀ a, w.Planned a → w.reconcileAgain = true ∨
      Ahead w.reconcileCursor (author :: authors) reachedEnd a := by
    intro a hp
    unfold HeadWorld.Planned at hp
    rw [hpc] at hp
    exact hp
  refine ⟨fun q hq hauthor => ?_, ?_⟩
  · refine ⟨rfl, rfl, rfl, hq, h.again, fun hs => h.anew ?_, (List.pairwise_cons.mp hsorted).2,
      fun wot' hw => .inl ?_, fun a _ ha hp => ?_⟩
    · rw [hpc]
      exact hs
    · rw [hpc]
      exact hw
    · rcases hplan a hp with hagain | hahead
      · exact .inr (.inr (.inl hagain))
      · by_cases hne : a = author
        · subst hne
          rcases hauthor with hin | hout
          · exact .inl hin
          · -- the page was compared with a web of trust that is about to be replaced
            rcases h.snapshot wot (by rw [hpc]; rfl) a ha with hc | hcoming
            · rw [hout] at hc
              cases hc
            · exact .inr (.inl (.inr (.inr hcoming)))
        · exact .inr (.inr (.inr (hahead.tail hsorted hne)))
  · refine ⟨rfl, rfl, rfl, Finset.Subset.refl _, fun _ => rfl, nofun, .nil,
      nofun, fun a _ _ hp => .inr (.inr ⟨rfl, ?_⟩)⟩
    rcases hplan a hp with hagain | hahead
    · exact .inl hagain
    · exact .inr hahead.1

/-- **The main loop forgets nobody.** It takes a signal and enqueues its author, or it notes that a scan is due; it
never drops one of them without the other. -/
theorem HeadWorld.Sound.go (h : w.Sound env trace) (hstep : w.go env.selfId = some (w', shown)) :
    LoopStep env w w' ∧ Plain shown := by
  unfold HeadWorld.go at hstep
  split at hstep
  · -- the first scan
    cases hstep
    exact ⟨⟨rfl, rfl, rfl, Finset.Subset.refl _, nofun, fun _ => rfl, .nil,
      nofun, fun a _ _ _ => .inr (.inr (.inr nofun))⟩, .inl rfl⟩
  · next author hpc =>
    have hplan : ∀ a, w.Planned a → a = author ∨ w.Deferred a := by
      intro a hp
      unfold HeadWorld.Planned at hp
      rw [hpc] at hp
      exact hp
    split at hstep
    · cases hstep
      exact ⟨.moved h (Finset.Subset.refl _) rfl rfl rfl fun a _ hp => .inr (.inr (hplan a hp)),
        .inl rfl⟩
    · next hout =>
      cases hstep
      refine ⟨.moved h (Finset.Subset.refl _) rfl rfl rfl fun a ha hp => ?_, .inl rfl⟩
      rcases hplan a hp with rfl | hp
      · rcases h.untrusted ha with hc | hcoming
        · exact absurd hc hout
        · exact .inr (.inl (.inr (.inr hcoming)))
      · exact .inr (.inr hp)
  · next author hpc => exact h.go_trusted hpc (Option.some.inj hstep)
  · next hpc =>
    cases hstep
    exact ⟨.moved h (Finset.Subset.refl _) rfl rfl rfl fun a _ _ => .inr (.inr trivial), .inl rfl⟩
  · next current todo hpc =>
    split at hstep
    · cases hstep
      exact ⟨.reconcile h.again rfl rfl rfl (Finset.Subset.refl _), .inl rfl⟩
    · cases hstep
  · next current todo author hpc =>
    rcases HeadWorld.enqueue_cases (Option.some.inj hstep) with ⟨q, hq, -, -, rfl, rfl⟩ | ⟨rfl, rfl⟩
    · refine ⟨.moved h ?_ rfl rfl rfl fun a _ _ => .inr (.inr trivial), .inr ⟨author, rfl⟩⟩
      rw [hq]
      exact Finset.subset_insert _ _
    · exact ⟨.reconcile h.again rfl rfl rfl (Finset.Subset.refl _), .inl rfl⟩
  · next scan hpc =>
    cases hstep
    refine ⟨⟨rfl, rfl, rfl, Finset.Subset.refl _, h.again, fun hs => h.anew ?_,
      (Pages.isPage_pageAfter _ _ _).sorted, nofun, fun a hauthor _ hp => ?_⟩, .inl rfl⟩
    · rw [hpc]
      exact hs
    · unfold HeadWorld.Planned at hp
      rw [hpc] at hp
      exact .inr (.inr (hp.imp id fun hp => ahead_page hauthor hp))
  · next scan authors hpc =>
    cases hstep
    refine ⟨⟨rfl, rfl, rfl, Finset.Subset.refl _, h.again, fun hs => h.anew ?_, ?_,
      fun wot hw => .inr ?_, fun a _ _ hp => ?_⟩, .inl rfl⟩
    · rw [hpc]
      exact hs
    · have hs := h.sorted
      rw [hpc] at hs
      exact hs
    · cases hw
      rfl
    · unfold HeadWorld.Planned at hp
      rw [hpc] at hp
      exact .inr (.inr hp)
  · next scan reachedEnd wot hpc =>
    split at hstep
    · next hend =>
      cases hstep
      subst hend
      exact ⟨h.go_complete hpc, .inl rfl⟩
    · next hend =>
      cases hstep
      refine ⟨⟨rfl, rfl, rfl, Finset.Subset.refl _, h.again, fun hs => h.anew ?_, .nil,
        nofun, fun a _ _ hp => ?_⟩, .inl rfl⟩
      · rw [hpc]
        exact hs
      · unfold HeadWorld.Planned at hp
        rw [hpc] at hp
        exact .inr (.inr (hp.imp id fun hp => hp.1))
  · next scan author authors reachedEnd wot hpc =>
    obtain ⟨hadvance, hfull⟩ := h.go_author hpc
    split at hstep
    · rcases HeadWorld.enqueue_cases (Option.some.inj hstep) with
        ⟨q, hq, -, -, rfl, rfl⟩ | ⟨rfl, rfl⟩
      · refine ⟨hadvance q ?_ (.inl ?_), .inr ⟨author, rfl⟩⟩
        · rw [hq]
          exact Finset.subset_insert _ _
        · rw [hq]
          exact Finset.mem_insert_self _ _
      · exact ⟨hfull, .inl rfl⟩
    · next hout =>
      cases hstep
      exact ⟨hadvance w.queue (Finset.Subset.refl _) (.inr (by simpa using hout)), .inl rfl⟩
  · cases hstep
  · cases hstep

/-- The loop is not touched: authors are passed on by the rest of the world. -/
theorem HeadWorld.Planned.frame {a : RostraId} (h : w.Planned a) (hpc : w'.pc = w.pc)
    (hcursor : w'.reconcileCursor = w.reconcileCursor)
    (hpending : w'.reconciliationPending = w.reconciliationPending)
    (hagain : w'.reconcileAgain = w.reconcileAgain) : w'.Planned a := by
  unfold HeadWorld.Planned HeadWorld.Deferred at *
  rw [hpc, hcursor, hpending, hagain]
  exact h

/-- A hook reaches the receivers. -/
theorem HeadWorld.Sound.hook {s : Signal} {p : Publisher} (h : w.Sound env trace)
    (hp : w.publisher.publish = some (s, p)) :
    (w.hear env.selfId s p).1.Sound env (trace ++ (w.hear env.selfId s p).2) := by
  obtain ⟨hcurrent, hdb, hhooks, -⟩ := h.current.publish hp
  have htrusts : ∀ {w' : HeadWorld}, w'.publisher = p → ∀ a, w'.Trusts env a → w.Trusts env a := by
    intro w' hw' a ha
    unfold HeadWorld.Trusts at *
    rwa [hw', hdb] at ha
  -- the web of trust is published: everybody is signalled
  by_cases hwot : Signal.IsWot s
  · obtain ⟨value, rfl⟩ := hwot
    have hcoming : (w.hear env.selfId (.publish (.wot value)) p).1.WotComing := .inl rfl
    exact ⟨hcurrent, h.again, h.anew, h.sorted, fun wot hw a ha => .inr hcoming,
      fun a _ _ _ => .inr (.inl (.inr (.inr hcoming)))⟩
  -- another hook: what it leaves behind is what it said
  have hrest : ∀ {w' : HeadWorld}, w'.publisher = p → w'.wotSeen = w.wotSeen → w.WotComing →
      w'.WotComing := by
    rintro w' hw' hseen (hseen' | ⟨t, ht, htwot⟩)
    · exact .inl (hseen.trans hseen')
    · rw [hhooks] at ht
      rcases List.mem_cons.mp ht with rfl | ht
      · exact absurd htwot hwot
      · exact .inr ⟨t, by rw [hw']; exact ht, htwot⟩
  have hkeep : ∀ {w' : HeadWorld}, w'.publisher = p → w'.wotSeen = w.wotSeen → w'.pc = w.pc →
      w'.reconcileCursor = w.reconcileCursor →
      w'.reconciliationPending = w.reconciliationPending → w'.reconcileAgain = w.reconcileAgain →
      w'.queue = w.queue →
      (∀ a, (∃ id, w.newHeads.Holds (a, id)) ∨ (∃ id, s = .newHead a id) →
        ∃ id, w'.newHeads.Holds (a, id)) →
      w'.Sound env (trace ++ []) := by
    intro w' hw' hseen hpc hcursor hpending hagain hqueue hheads
    refine ⟨hw' ▸ hcurrent, by rw [hagain, hpending]; exact h.again,
      by rw [hpc, hpending]; exact h.anew, by rw [hpc]; exact h.sorted, fun wot hw a ha => ?_,
      fun a hauthor ha hserve => ?_⟩
    · rw [hpc] at hw
      exact (h.snapshot wot hw a (htrusts hw' a ha)).imp id (hrest hw' hseen)
    · rw [hw', hdb] at hauthor
      rw [List.append_nil] at hserve
      rcases h.cared a hauthor (htrusts hw' a ha) hserve with hin | (hs | ⟨id, hs⟩ | hs) | hplan
      · exact .inl (hqueue ▸ hin)
      · exact .inr (.inl (.inl (hheads a (.inl hs))))
      · rw [hhooks] at hs
        rcases List.mem_cons.mp hs with hs | hs
        · exact .inr (.inl (.inl (hheads a (.inr ⟨id, hs.symm⟩))))
        · exact .inr (.inl (.inr (.inl ⟨id, by rw [hw']; exact hs⟩)))
      · exact .inr (.inl (.inr (.inr (hrest hw' hseen hs))))
      · exact .inr (.inr (hplan.frame hpc hcursor hpending hagain))
  cases s with
  | newHead author id =>
    refine hkeep rfl rfl rfl rfl rfl rfl rfl fun a ha => ?_
    rcases ha with ⟨id', hid'⟩ | ⟨id', heq⟩
    · exact ⟨id', hid'.send _ _⟩
    · cases heq
      exact ⟨id, Broadcast.Receiver.holds_send _ _ _⟩
  | publish value =>
    cases value with
    | wot value => exact absurd ⟨value, rfl⟩ hwot
    | _ =>
      refine hkeep rfl rfl rfl rfl rfl rfl rfl fun a ha => ?_
      rcases ha with ha | ⟨id, heq⟩
      · exact ha
      · cases heq
  | _ =>
    refine hkeep rfl rfl rfl rfl rfl rfl rfl fun a ha => ?_
    rcases ha with ha | ⟨id, heq⟩
    · exact ha
    · cases heq

/-- Where everybody is planned, nobody is lost. -/
theorem HeadWorld.Sound.of_planned (hcurrent : w.publisher.Current env)
    (hagain : w.reconcileAgain = true → w.reconciliationPending = true)
    (hanew : w.pc.scan = some .anew → w.reconciliationPending = false) (hauthors : w.pc.authors = [])
    (hsnapshot : w.pc.snapshot = none) (hplanned : ∀ a, w.Planned a) : w.Sound env trace where
  current := hcurrent
  again := hagain
  anew := hanew
  sorted := by
    rw [hauthors]
    exact .nil
  snapshot := fun wot hw => by
    rw [hsnapshot] at hw
    cases hw
  cared := fun a _ _ _ => .inr (.inr (hplanned a))

theorem HeadWorld.reconcile_sound (hcurrent : w.publisher.Current env)
    (hagain : w.reconcileAgain = true → w.reconciliationPending = true) :
    w.reconcile.Sound env trace := by
  have hplanned := w.reconcile_planned
  revert hplanned
  unfold HeadWorld.reconcile
  split
  · next hpend =>
    intro hplanned
    exact .of_planned hcurrent (fun _ => hpend) nofun rfl rfl hplanned
  · next hpend =>
    intro hplanned
    exact .of_planned hcurrent hagain (fun _ => by simpa using hpend) rfl rfl hplanned

/-- A head is received. -/
theorem HeadWorld.Sound.received {author : RostraId} {id : ShortEventId}
    {r : Broadcast.Receiver (RostraId × ShortEventId)} (h : w.Sound env trace)
    (hpc : w.pc = .waiting) (hrecv : w.newHeads.recv = some (.ok (author, id), r)) :
    ({ w with newHeads := r, pc := .received author } : HeadWorld).Sound env trace where
  current := h.current
  again := h.again
  anew := nofun
  sorted := .nil
  snapshot := nofun
  cared := by
    intro a hauthor ha hserve
    rcases h.cared a hauthor ha hserve with hin | (⟨id', hs⟩ | hs) | hplan
    · exact .inl hin
    · rcases hs.recv hrecv with hs | heq | ⟨n, heq⟩
      · exact .inr (.inl (.inl ⟨id', hs⟩))
      · cases heq
        exact .inr (.inr (.inl rfl))
      · cases heq
    · exact .inr (.inl (.inr hs))
    · unfold HeadWorld.Planned at hplan
      rw [hpc] at hplan
      exact .inr (.inr (.inr hplan))

/-- A worker takes or releases an author. -/
theorem HeadWorld.Sound.worked {q : WorkQueue} {workers : List (Option RostraId)}
    (h : w.Sound env trace)
    (hq : ∀ a ∈ w.queue.pending, a ∈ q.pending ∨ a ∈ served (trace ++ shown))
    (hserved : served trace ⊆ served (trace ++ shown)) :
    ({ w with queue := q, workers := workers } : HeadWorld).Sound env (trace ++ shown) where
  current := h.current
  again := h.again
  anew := h.anew
  sorted := h.sorted
  snapshot := h.snapshot
  cared := by
    intro a hauthor ha hserve
    rcases h.cared a hauthor ha fun hin => hserve (hserved hin) with hin | hs | hplan
    · exact .inl ((hq a hin).resolve_right hserve)
    · exact .inr (.inl hs)
    · exact .inr (.inr (hplan.frame rfl rfl rfl rfl))

variable [Primitives]

/-- A commit announces the heads and the trust that it adds. -/
theorem HeadWorld.Sound.commit {op : Op} {p : Publisher} (h : w.Sound env trace)
    (hp : w.publisher.commit env op = some p) :
    ({ w with publisher := p } : HeadWorld).Sound env (trace ++ [.fresh
      (freshHeads w.publisher.db p.db ∪ newlyAdmittedAuthors (readWatches env w.publisher.db).selfWot
        (readWatches env p.db).selfWot env.selfId)]) := by
  obtain ⟨hcurrent, hnone, hhooks, hok, hwatches⟩ := h.current.commit hp
  -- trust that was not there before has a hook
  have hadmitted : ∀ a, ({ w with publisher := p } : HeadWorld).Trusts env a → w.Trusts env a ∨
      ∃ s ∈ p.hooks, Signal.IsWot s := by
    intro a ha
    rcases hcurrent.selfWot with heq | hhook
    · have hold : w.publisher.watches.selfWot = (readWatches env w.publisher.db).selfWot := by
        have := h.current
        unfold Publisher.Current at this
        rw [hnone] at this
        rw [← this]
        rfl
      refine .inl ?_
      unfold HeadWorld.Trusts at *
      rwa [← heq, hwatches, hold] at ha
    · exact .inr hhook
  refine ⟨hcurrent, h.again, h.anew, h.sorted, fun wot hw a ha => ?_, fun a hauthor ha hserve => ?_⟩
  · rcases hadmitted a ha with hold | hhook
    · rcases h.snapshot wot hw a hold with hc | hseen | ⟨s, hs, -⟩
      · exact .inl hc
      · exact .inr (.inl hseen)
      · rw [hnone] at hs
        cases hs
    · exact .inr (.inr hhook)
  · rw [served_append] at hserve
    obtain ⟨k, hk, hka⟩ := Finset.mem_image.mp hauthor
    rcases (step_heralded hok).heads k hk with hold | hnew
    · rcases hadmitted a ha with htrust | hhook
      · by_cases hfresh : a ∈ served trace
        · -- taken before, so something is new about it
          have hin : a ∈ freshHeads w.publisher.db p.db ∪ newlyAdmittedAuthors
              (readWatches env w.publisher.db).selfWot (readWatches env p.db).selfWot env.selfId := by
            by_contra hout
            exact hserve (Finset.mem_sdiff.mpr ⟨hfresh, hout⟩)
          rcases Finset.mem_union.mp hin with hin | hin
          · obtain ⟨k', hk', rfl⟩ := Finset.mem_image.mp hin
            obtain ⟨hk', hnot⟩ := Finset.mem_sdiff.mp hk'
            have hnew := ((step_heralded hok).heads k' hk').resolve_left hnot
            exact .inr (.inl (.inr (.inl ⟨k'.2, by rw [← hhooks] at hnew; exact hnew⟩)))
          · obtain ⟨-, hout⟩ := Finset.mem_filter.mp hin
            unfold HeadWorld.Trusts at htrust
            rw [htrust] at hout
            cases hout
        · have hmem : a ∈ headAuthors w.publisher.db.ev := Finset.mem_image.mpr ⟨k, hold, hka⟩
          rcases h.cared a hmem htrust hfresh with hin | (hs | ⟨id, hs⟩ | hseen | ⟨s, hs, -⟩) | hplan
          · exact .inl hin
          · exact .inr (.inl (.inl hs))
          · rw [hnone] at hs
            cases hs
          · exact .inr (.inl (.inr (.inr (.inl hseen))))
          · rw [hnone] at hs
            cases hs
          · exact .inr (.inr (hplan.frame rfl rfl rfl rfl))
      · exact .inr (.inl (.inr (.inr (.inr hhook))))
    · refine .inr (.inl (.inr (.inl ⟨k.2, ?_⟩)))
      rw [hka, ← hhooks] at hnew
      exact hnew

/-- **Every step keeps the invariant**: those of the loop and of the workers, commits, hooks, and lost values. -/
theorem HeadWorld.Sound.step {a : HeadAct} (h : w.Sound env trace)
    (hstep : w.step env a = some (w', shown)) : w'.Sound env (trace ++ shown) := by
  cases a with
  | commit op =>
    simp only [HeadWorld.step, Option.map_eq_some_iff] at hstep
    obtain ⟨p, hp, hstep⟩ := hstep
    cases hstep
    exact h.commit hp
  | hook =>
    simp only [HeadWorld.step, Option.map_eq_some_iff] at hstep
    obtain ⟨r, hp, hstep⟩ := hstep
    have hheard := h.hook hp
    rw [hstep] at hheard
    exact hheard
  | take worker =>
    simp only [HeadWorld.step] at hstep
    split at hstep
    · next author queue hidle htake =>
      cases hstep
      unfold WorkQueue.takeWork at htake
      rw [Option.map_eq_some_iff] at htake
      obtain ⟨id, hleast, hq⟩ := htake
      cases hq
      have hserved : served (trace ++ [.took worker author]) = insert author (served trace) := by
        rw [served_append]
        rfl
      refine h.worked (fun a ha => ?_) (by rw [hserved]; exact Finset.subset_insert _ _)
      by_cases heq : a = author
      · exact .inr (by rw [hserved, heq]; exact Finset.mem_insert_self _ _)
      · exact .inl (Finset.mem_erase_of_ne_of_mem heq ha)
    · cases hstep
  | release worker =>
    simp only [HeadWorld.step] at hstep
    split at hstep
    · next author hheld =>
      cases hstep
      have hserved : served (trace ++ [.released worker author]) = served trace := by
        rw [served_append]
        rfl
      exact h.worked (fun a ha => .inl ha) (by rw [hserved])
    · cases hstep
  | recvHead =>
    simp only [HeadWorld.step, Option.ite_none_right_eq_some, Option.map_eq_some_iff] at hstep
    obtain ⟨hpc, ⟨result, r⟩, hrecv, hstep⟩ := hstep
    cases result with
    | ok v =>
      cases hstep
      rw [List.append_nil]
      exact h.received hpc hrecv
    | error n =>
      cases hstep
      exact HeadWorld.reconcile_sound h.current h.again
  | wotChanged =>
    simp only [HeadWorld.step, Option.ite_none_right_eq_some] at hstep
    cases hstep.2
    exact .of_planned h.current h.again nofun rfl rfl fun _ => trivial
  | spaceAvailable =>
    simp only [HeadWorld.step, Option.ite_none_right_eq_some] at hstep
    obtain ⟨⟨hpc, hpending, -⟩, hstep⟩ := hstep
    cases hstep
    rw [List.append_nil]
    refine ⟨h.current, h.again, nofun, .nil, nofun, fun a hauthor ha hserve => ?_⟩
    rcases h.cared a hauthor ha hserve with hin | hs | hplan
    · exact .inl hin
    · exact .inr (.inl hs)
    · unfold HeadWorld.Planned at hplan
      rw [hpc] at hplan
      exact .inr (.inr hplan.2)
  | leave =>
    simp only [HeadWorld.step, Option.ite_none_right_eq_some] at hstep
    cases hstep.2
    exact .of_planned h.current h.again nofun rfl rfl fun _ => trivial
  | examine author =>
    simp only [HeadWorld.step] at hstep
    split at hstep
    · split at hstep
      · split at hstep
        · cases hstep
          exact .of_planned h.current h.again nofun rfl rfl fun _ => trivial
        · cases hstep
          exact .of_planned h.current h.again nofun rfl rfl fun _ => trivial
      · cases hstep
    · cases hstep
  | go =>
    obtain ⟨hloop, hplain⟩ := h.go hstep
    exact h.loop hloop hplain

/-- **Head reconciliation loses no author**, in every interleaving: an author is leased by one worker at
most, the pending set is bounded, what was enqueued stays pending until it is taken, and while the main
loop waits and all hooks have run, every trusted author with heads that was not taken since its last head
and its last admission is pending, or about to be signalled, or left to the scan that is stuck. -/
theorem heads_never_lost (env : Env) (db : Database) (acts : List HeadAct) :
    (∀ (i j : ℕ) (a : RostraId), (headRan env db acts).1.workers[i]? = some (some a) →
      (headRan env db acts).1.workers[j]? = some (some a) → i = j) ∧
    (headRan env db acts).1.queue.pending.card ≤ MAX_PENDING_AUTHORS ∧
    (∀ before after a, (headRan env db acts).2 = before ++ .enqueued a :: after →
      (∃ worker, .took worker a ∈ after) ∨ a ∈ (headRan env db acts).1.queue.pending) ∧
    ((headRan env db acts).1.pc = .waiting → (headRan env db acts).1.publisher.hooks = [] →
      ∀ a ∈ headAuthors (headRan env db acts).1.publisher.db.ev,
        (readWatches env (headRan env db acts).1.publisher.db).selfWot.contains a env.selfId = true →
        a ∉ served (headRan env db acts).2 →
        a ∈ (headRan env db acts).1.queue.pending ∨
        (∃ id, (a, id) ∈ (headRan env db acts).1.newHeads.unread) ∨
        (headRan env db acts).1.newHeads.missed ≠ 0 ∨
        (headRan env db acts).1.wotSeen = false ∨
        ((headRan env db acts).1.reconciliationPending = true ∧
          ((headRan env db acts).1.reconcileAgain = true ∨
            ∀ c ∈ (headRan env db acts).1.reconcileCursor, c < a))) := by
  have hrun : (headRan env db acts).1.Leased ∧
      EnqueuedKept (headRan env db acts).1 (headRan env db acts).2 ∧
      (headRan env db acts).1.Sound env (headRan env db acts).2 := by
    have hsound : ({ publisher := .open env db } : HeadWorld).Sound env [] :=
      .of_planned (.opened env db) nofun nofun rfl rfl fun _ => trivial
    refine Machine.run_invariant (J := fun w trace => w.Leased ∧ EnqueuedKept w trace ∧
      w.Sound env trace) ⟨leased_start _, fun before after a heq => by simp at heq, hsound⟩ acts
      fun a _ w trace w' shown h hstep => ?_
    have hqueue := HeadWorld.step_queue hstep
    exact ⟨h.1.step hqueue, h.2.1.step hqueue, h.2.2.step hstep⟩
  obtain ⟨hleased, hkept, hsound⟩ := hrun
  refine ⟨hleased.once, hleased.bounded, hkept, fun hpc hhooks a hauthor ha hserve => ?_⟩
  rcases hsound.cared a hauthor ha hserve with
    hin | (⟨id, hs | hs⟩ | ⟨id, hs⟩ | hseen | ⟨s, hs, -⟩) | hplan
  · exact .inl hin
  · exact .inr (.inl ⟨id, hs⟩)
  · exact .inr (.inr (.inl hs))
  · rw [hhooks] at hs
    cases hs
  · exact .inr (.inr (.inr (.inl hseen)))
  · rw [hhooks] at hs
    cases hs
  · unfold HeadWorld.Planned at hplan
    rw [hpc] at hplan
    exact .inr (.inr (.inr (.inr hplan)))

end Loop

end Rostra.Client
