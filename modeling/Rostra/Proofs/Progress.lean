/-
# The lifecycle goes one way

How the state of one event can change while transactions go on.  `Later t t'` collects what is never
undone: a stored header stays, `Deleted` is final, content that is `Missing` was `Missing` ever since
its header arrived, and its row changes only to a strictly later fetch slot.

Each operation other than an insertion changes the state of at most one event (`Moves`), and the four
edges it can take are listed with the effects in `Rules`; so every case below is a look at one row.

The order is used in two ways. A fact that is preserved forwards, such as that content is no longer awaited, is
carried from the state in which it was observed to all later ones. And a fact about the past can be read off the
present: content that is awaited now was awaited ever since its header arrived, so nothing has happened to it.
-/
import Rostra.Proofs.Effects

namespace Rostra.Db

open Rostra Outcome

/-! ## 1. One row at a time

An operation is a move of one row, and a sequence of operations is a sequence of moves. -/

/-- One event changes its state, every other keeps its own. -/
structure Moves (t t' : EventTables) (id : ShortEventId) (new : Option EventContentState) : Prop where
  events : t'.events = t.events
  self : t'.eventsContentState.get id = new
  other : ∀ id', id' ≠ id → t'.eventsContentState.get id' = t.eventsContentState.get id'

theorem moves_insert {t t' : EventTables} (id : ShortEventId) (s : EventContentState)
    (hev : t'.events = t.events) (hst : t'.eventsContentState = t.eventsContentState.insert id s) :
    Moves t t' id (some s) :=
  ⟨hev, by rw [hst, Table.get_insert_self], fun id' hid => by rw [hst, Table.get_insert_of_ne _ _ hid]⟩

theorem moves_remove {t t' : EventTables} (id : ShortEventId) (hev : t'.events = t.events)
    (hst : t'.eventsContentState = t.eventsContentState.remove id) : Moves t t' id none :=
  ⟨hev, by rw [hst, Table.get_remove_self], fun id' hid => by rw [hst, Table.get_remove_of_ne _ hid]⟩

/-! ## 2. What is never undone

A preorder between earlier and later tables. -/

/-- The fetch slot of `Missing` content. -/
def slot? : Option EventContentState → Option Timestamp
  | some (.missing _ _ next) => some next
  | _ => none

theorem slot?_eq_some {s : Option EventContentState} {n : Timestamp} :
    slot? s = some n ↔ ∃ last count, s = some (.missing last count n) := by
  rcases s with _ | _ | _ | _ | _ <;> simp [slot?]

theorem slot?_isSome {s : Option EventContentState} : (slot? s).isSome ↔ classOf s = .missing := by
  rcases s with _ | _ | _ | _ | _ <;> simp [slot?, classOf]

/-- `t'` is a later state than `t`. -/
structure Later (t t' : EventTables) : Prop where
  stored : ∀ id e, t.events.get id = some e → t'.events.get id = some e
  missing : ∀ id e n', t.events.get id = some e → slot? (t'.eventsContentState.get id) = some n' →
    ∃ n, slot? (t.eventsContentState.get id) = some n ∧
      (n < n' ∨ t'.eventsContentState.get id = t.eventsContentState.get id)
  deleted : ∀ id e, t.events.get id = some e → contentClass t id = .deleted →
    contentClass t' id = .deleted

theorem Later.refl (t : EventTables) : Later t t :=
  ⟨fun _ _ h => h, fun _ _ n _ h => ⟨n, h, .inr rfl⟩, fun _ _ _ h => h⟩

theorem Later.trans {t t' t'' : EventTables} (h : Later t t') (h' : Later t' t'') : Later t t'' := by
  refine ⟨fun id e he => h'.stored id e (h.stored id e he), fun id e n'' he hn'' => ?_,
    fun id e he hd => h'.deleted id e (h.stored id e he) (h.deleted id e he hd)⟩
  obtain ⟨n', hn', hstep'⟩ := h'.missing id e n'' (h.stored id e he) hn''
  obtain ⟨n, hn, hstep⟩ := h.missing id e n' he hn'
  refine ⟨n, hn, ?_⟩
  rcases hstep' with hlt' | heq'
  · rcases hstep with hlt | heq
    · exact .inl (hlt.trans hlt')
    · rw [heq, hn] at hn'
      cases hn'
      exact .inl hlt'
  · rcases hstep with hlt | heq
    · rw [heq', hn'] at hn''
      cases hn''
      exact .inl hlt
    · exact .inr (heq'.trans heq)

/-- A change that leaves headers and states alone. -/
theorem Later.of_eq {t t' : EventTables} (hev : t'.events = t.events)
    (hst : t'.eventsContentState = t.eventsContentState) : Later t t' := by
  refine ⟨fun id e he => by rw [hev]; exact he, fun id e n _ hn => ⟨n, ?_, .inr (by rw [hst])⟩,
    fun id e _ hd => ?_⟩
  · rw [← hst]
    exact hn
  · rw [contentClass, hst]
    exact hd

/-- **One row forward.** -/
theorem Moves.later {t t' : EventTables} {id : ShortEventId} {new : Option EventContentState}
    (h : Moves t t' id new)
    (hslot : ∀ n', slot? new = some n' → ∃ n, slot? (t.eventsContentState.get id) = some n ∧ n < n')
    (hdel : contentClass t id ≠ .deleted) : Later t t' := by
  refine ⟨fun id' e he => by rw [h.events]; exact he, fun id' e n' _ hn' => ?_, fun id' e _ hd => ?_⟩
  · by_cases hid : id' = id
    · rw [hid, h.self] at hn'
      rw [hid]
      obtain ⟨n, hn, hlt⟩ := hslot n' hn'
      exact ⟨n, hn, .inl hlt⟩
    · rw [h.other id' hid] at hn'
      exact ⟨n', hn', .inr (h.other id' hid)⟩
  · by_cases hid : id' = id
    · rw [hid] at hd
      exact absurd hd hdel
    · rw [contentClass, h.other id' hid]
      exact hd

/-! ## 3. The operations

Each of them is forward, and so is a run. -/

/-- Pruning is a move to `Pruned`, or nothing. -/
theorem PruneEffect.later {t t' : EventTables} {id : ShortEventId} (h : PruneEffect t id t') :
    Later t t' := by
  cases h with
  | kept _ h =>
    rw [h]
    exact .refl t
  | pruned href rc u h =>
    have hm : Moves t t' id (some .pruned) := by
      subst h
      exact moves_insert _ _ rfl rfl
    refine hm.later (fun n' hn' => ?_) fun hd => ?_
    · cases hn'
    · rw [hd] at href
      cases href

theorem rescheduleTx_later (t : EventTables) (id : ShortEventId) (observed next : Timestamp)
    (update : Option Timestamp → ℕ → Option Timestamp × ℕ) :
    Later t (rescheduleTx t id observed next update) := by
  rcases rescheduleTx_effect t id observed next update with heq |
    ⟨_, _, last', count', _, hs, -, hlt, heq⟩
  · rw [heq]
    exact .refl t
  · have hm : Moves t (rescheduleTx t id observed next update) id
        (some (.missing last' count' next)) := by
      rw [heq]
      exact moves_insert _ _ rfl rfl
    refine hm.later (fun n' hn' => ?_) fun hd => ?_
    · obtain ⟨_, _, hm⟩ := slot?_eq_some.mp hn'
      cases hm
      exact ⟨_, slot?_eq_some.mpr ⟨_, _, hs⟩, hlt⟩
    · rw [contentClass, hs] at hd
      cases hd

variable [Primitives]

/-- An insertion adds a header, and deletes the content of a parent at most. -/
theorem InsertEffect.later {t : EventTables} {v : VerifiedEvent}
    {r : EventTables × InsertEventOutcome} (h : InsertEffect t v r) : Later t r.1 := by
  cases h with
  | present e he hreg ht ho =>
    rw [ht]
    exact .of_eq rfl rfl
  | new hnew hreg wm isD dp rev mp h ho =>
    have hne : ∀ id e, t.events.get id = some e → id ≠ v.id := by
      rintro id e he rfl
      rw [hnew] at he
      cases he
    refine ⟨fun id e he => ?_, fun id e n' he hn' => ?_, fun id e he hd => ?_⟩
    · rw [h.events, Table.get_insert_of_ne _ _ (hne id e he)]
      exact he
    · by_cases hdp : dp = some id
      · obtain ⟨d, hd⟩ := h.state_parent id hdp
        rw [hd] at hn'
        cases hn'
      · rw [h.state_other id (hne id e he) hdp] at hn'
        exact ⟨n', hn', .inr (h.state_other id (hne id e he) hdp)⟩
    · by_cases hdp : dp = some id
      · obtain ⟨d, hd⟩ := h.state_parent id hdp
        rw [contentClass, hd]
        rfl
      · rw [contentClass, h.state_other id (hne id e he) hdp]
        exact hd

/-- **Every transaction moves forward.** -/
theorem later_keeps (D : Set VerifiedEvent) (t₀ : EventTables) :
    Keeps D Anything AnythingMid (Later t₀) (fun _ => Later t₀) (fun _ => True) where
  insert t v _ _ _ h := (insertEventTx_effect t v).mono (fun _ hr => h.trans hr.later) fun _ h => h
  settle t v _ _ _ h :=
    (pruneEventContentTx_effect t v.id v.event).mono (fun _ hr => h.trans hr.later) fun _ h => h
  schedule t v _ _ _ _ h := by
    obtain ⟨q, hq⟩ := ensureMissingScheduledTx_effect t v.id
    rw [hq]
    exact h.trans (.of_eq rfl rfl)
  prune t id e _ _ _ h :=
    (pruneEventContentTx_effect t id e).mono (fun _ hr => h.trans hr.later) fun _ h => h
  store t c b _ hm _ _ _ h := by
    refine (storeContentTx_effect _ _ b).mono (fun t' ht' => ?_) fun _ h => h
    obtain ⟨u, rfl⟩ := ht'
    refine h.trans (Moves.later (moves_remove c.event.id rfl rfl)
      (fun n' hn' => ?_) fun hd => ?_)
    · cases hn'
    · rw [hm] at hd
      cases hd
  reject t c _ hm _ _ h := by
    refine (rejectContentTx_effect _ _).mono (fun t' ht' => ?_) fun _ h => h
    obtain ⟨rc, u, rfl⟩ := ht'
    refine h.trans (Moves.later (moves_insert c.event.id .invalid rfl rfl)
      (fun n' hn' => ?_) fun hd => ?_)
    · cases hn'
    · rw [hm] at hd
      cases hd
  collect t k _ _ _ h := h.trans (.of_eq rfl rfl)
  defer t id _ _ h := by
    obtain ⟨q, hq⟩ := ensureMissingScheduledTx_effect t id
    rw [hq]
    exact h.trans (.of_eq rfl rfl)
  reschedule t id o n u _ _ h := h.trans (rescheduleTx_later t id o n u)
  peek t _ _ h := by
    obtain ⟨q, hq⟩ := peekLoop_effect (t.eventsContentMissing.card + 1) t
    show Later t₀ (peekLoop _ _).1
    rw [hq]
    exact h.trans (.of_eq rfl rfl)
  other _ _ := trivial

/-- **Along every run**: what is reached after more transactions is later. -/
theorem reached_later (env : Env) {D : Set VerifiedEvent} (hcf : CollisionFree D) (ops ops' : List Op)
    (hD : DeliveredFrom D (ops ++ ops')) :
    Later (reached env ops).ev (reached env (ops ++ ops')).ev := by
  have hground : OnGround D (Later (reached env ops).ev) (reached env ops).ev :=
    ⟨(reached_keeps env (later_keeps D {}) hcf (.refl _) ops
      fun o ho => hD o (by simp [ho])).1, .refl _⟩
  have hrun := run_invariant
    (J := fun db : Database => OnGround D (Later (reached env ops).ev) db.ev) ops'
    (reached env ops) (f := step env)
    (fun o ho db db' hdb hok => (step_keeps (later_keeps D _) hcf hdb o
      (hD o (by simp [ho]))).of_ok hok) hground
  have happend : reached env (ops ++ ops') = run (step env) (reached env ops) ops' :=
    run_append _ _ _
  rw [happend]
  exact hrun.2

/-! ## 4. Oversized content is out of the way

Content that is too long is pruned by the transaction of its envelope. Between its insertion and that moment it may
hold a reference, so that the event at hand is excepted. -/

/-- Oversized content holds no reference, with the possible exception of one event. -/
def OversizedOutBut (skip : Option ShortEventId) (t : EventTables) : Prop :=
  ∀ id e, some id ≠ skip → t.events.get id = some e → MAX_CONTENT_LEN ≤ e.contentLen →
    (contentClass t id).referenced = false

abbrev OversizedOut : EventTables → Prop := OversizedOutBut none

omit [Primitives] in
theorem oversizedOut_empty : OversizedOut {} := by
  intro id e _ he
  simp at he

omit [Primitives] in
/-- No row leads back to a referenced state. -/
theorem OversizedOutBut.mono {skip : Option ShortEventId} {t t' : EventTables}
    (h : OversizedOutBut skip t) (hev : t'.events = t.events)
    (hcls : ∀ id, (contentClass t' id).referenced = true → (contentClass t id).referenced = true) :
    OversizedOutBut skip t' := by
  intro id e hs he hlen
  rw [hev] at he
  by_contra hr
  have := h id e hs he hlen
  rw [hcls id (by simpa using hr)] at this
  cases this

omit [Primitives] in
theorem PruneEffect.oversizedOut {skip : Option ShortEventId} {t t' : EventTables}
    {id : ShortEventId} (h : PruneEffect t id t') (ho : OversizedOutBut skip t) :
    OversizedOutBut skip t' := by
  refine ho.mono h.events fun id' hr => ?_
  by_cases hid : id' = id
  · rw [hid, h.terminal] at hr
    cases hr
  · cases h with
    | kept _ h => rwa [h] at hr
    | pruned _ rc u h => rwa [h, contentClass, Table.get_insert_of_ne _ _ hid] at hr

theorem InsertEffect.oversizedOut {t : EventTables} {v : VerifiedEvent}
    {r : EventTables × InsertEventOutcome} (h : InsertEffect t v r) (ho : OversizedOut t) :
    OversizedOutBut (some v.id) r.1 := by
  intro id e hs he hlen
  have hid : id ≠ v.id := fun h => hs (by rw [h])
  cases h with
  | present e' he' hreg ht ho' =>
    rw [ht] at he ⊢
    exact ho id e (by simp) he hlen
  | new hnew hreg wm isD dp rev mp h ho' =>
    rw [h.events, Table.get_insert_of_ne _ _ hid] at he
    by_cases hdp : dp = some id
    · obtain ⟨d, hd⟩ := h.state_parent id hdp
      rw [contentClass, hd]
      rfl
    · rw [contentClass, h.state_other id hid hdp]
      exact ho id e (by simp) he hlen

/-- **Every transaction keeps oversized content out.**  The exception is the event that was just
inserted, until its state is settled. -/
theorem oversizedOut_keeps (D : Set VerifiedEvent) :
    Keeps D Anything AnythingMid OversizedOut (fun v => OversizedOutBut (some v.id))
      (fun _ => True) where
  insert t v _ _ _ h := (insertEventTx_effect t v).mono (fun _ hr => hr.oversizedOut h) fun _ h => h
  settle t v _ _ _ h :=
    (pruneEventContentTx_effect t v.id v.event).mono (fun _ hr => hr.oversizedOut h) fun _ h => h
  schedule t v he hs _ _ h := by
    obtain ⟨q, hq⟩ := ensureMissingScheduledTx_effect t v.id
    rw [hq]
    intro id e _ he' hlen
    by_cases hid : id = v.id
    · subst hid
      cases he.symm.trans he'
      exact hs hlen
    · exact h id e (fun h => hid (Option.some.inj h)) he' hlen
  prune t id e _ _ _ h :=
    (pruneEventContentTx_effect t id e).mono (fun _ hr => hr.oversizedOut h) fun _ h => h
  store t c b hc hm _ _ _ h := by
    refine (storeContentTx_effect _ _ b).mono (fun t' ht' => ?_) fun _ h => h
    obtain ⟨u, rfl⟩ := ht'
    -- what was awaited held a reference already
    refine h.mono rfl fun id hr => ?_
    by_cases hid : id = c.event.id
    · rw [hid, hm]
      rfl
    · rwa [contentClass, Table.get_remove_of_ne _ hid] at hr
  reject t c _ hm _ _ h := by
    refine (rejectContentTx_effect _ _).mono (fun t' ht' => ?_) fun _ h => h
    obtain ⟨rc, u, rfl⟩ := ht'
    refine h.mono rfl fun id hr => ?_
    by_cases hid : id = c.event.id
    · rw [hid, hm]
      rfl
    · rwa [contentClass, Table.get_insert_of_ne _ _ hid] at hr
  collect t k _ _ _ h := h.mono rfl fun _ h => h
  defer t id _ _ h := by
    obtain ⟨q, hq⟩ := ensureMissingScheduledTx_effect t id
    rw [hq]
    exact h.mono rfl fun _ h => h
  reschedule t id o n u _ _ h := by
    have hr := rescheduleTx_rescheduled t id o n u
    exact h.mono hr.events fun id' hc => by rwa [hr.classes] at hc
  peek t _ _ h := by
    obtain ⟨q, hq⟩ := peekLoop_effect (t.eventsContentMissing.card + 1) t
    show OversizedOut (peekLoop _ _).1
    rw [hq]
    exact h.mono rfl fun _ h => h
  other _ _ := trivial

end Rostra.Db
