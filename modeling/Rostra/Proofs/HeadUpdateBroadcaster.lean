/-
# No head of the account is forgotten

A head of the account is in one of these conditions (`Cared`): everybody has acknowledged it, a signal
about it is under way, its content is gone, it is pending and the task will come to it, or the task is
about to look at all heads again.  A pending head that a scan has passed has an excuse (`Excused`): a
retry, content that is missing, or a signal that content has come.

* Section 1: delays.
* Section 2: what reads of content can find, given what is known of reached tables.
* Section 3: the invariant, and what happens around the task: a commit, a hook.
* Section 4: the steps of the task.

What is promised is about a state in which the task waits, but nothing is said about a task that waits unless
something is said about every place it may be in before. So `Cared` is a disjunction over the whole loop, and each
statement of the loop hands a head from one of its cases to another.
-/
import Rostra.Client.HeadUpdateBroadcaster
import Rostra.Proofs.Publisher
import Rostra.Proofs.Store

namespace Rostra.Client

open Rostra Db Outcome

/-! ## 1. Delays

A retry doubles the delay of the one before up to a bound. Doubling is a shift of a 32-bit factor and then a
product of a duration, both of which could leave their range; neither does, because the bound takes over before. -/

theorem retryFactor_eq (retryCount : ℕ) : retryFactor retryCount = 2 ^ min retryCount 31 := by
  rw [retryFactor, Nat.shiftLeft_eq, Nat.one_mul]

theorem retryFactor_mono {n m : ℕ} (h : n ≤ m) : retryFactor n ≤ retryFactor m := by
  rw [retryFactor_eq, retryFactor_eq]
  exact Nat.pow_le_pow_right (by decide) (min_le_min_right 31 h)

/-- The shift stays within a `u32`. -/
theorem retryFactor_lt (retryCount : ℕ) : retryFactor retryCount < 2 ^ 32 := by
  rw [retryFactor_eq]
  exact Nat.pow_lt_pow_right (by decide) (Nat.lt_succ_of_le (min_le_right retryCount 31))

theorem Duration.checkedMul_getD (d : Duration) (n : ℕ) :
    (d.checkedMul n).getD Duration.max = min (d * n) Duration.max := by
  unfold Duration.checkedMul
  split
  · next h => exact (min_eq_left h).symm
  · next h => exact (min_eq_right (Nat.le_of_not_le h)).symm

theorem broadcastRetryDelay_mono (policy : BroadcastPolicy) {n m : ℕ} (h : n ≤ m) :
    broadcastRetryDelay n policy ≤ broadcastRetryDelay m policy := by
  unfold broadcastRetryDelay
  rw [Duration.checkedMul_getD, Duration.checkedMul_getD]
  exact min_le_min_right _ (min_le_min_right _ (Nat.mul_le_mul_left _ (retryFactor_mono h)))

theorem broadcastRetryDelay_le (policy : BroadcastPolicy) (n : ℕ) :
    broadcastRetryDelay n policy ≤ policy.retryMaxDelay := min_le_right _ _

/-- A product that does not fit is above the bound anyway. -/
theorem broadcastRetryDelay_eq {policy : BroadcastPolicy} (h : policy.retryMaxDelay ≤ Duration.max)
    (n : ℕ) : broadcastRetryDelay n policy =
      min (policy.retryInitialDelay * retryFactor n) policy.retryMaxDelay := by
  unfold broadcastRetryDelay
  rw [Duration.checkedMul_getD, min_assoc, min_eq_right h]

/-- The task wakes up for the first retry of a pending head. -/
theorem BroadcastWorld.nextRetry_le {w : BroadcastWorld} {head : ShortEventId}
    {retry : BroadcastRetry} (hpending : head ∈ w.pendingHeads)
    (hretry : w.retryAt.get head = some retry) : w.nextRetry ≤ retry.dueAt := by
  unfold BroadcastWorld.nextRetry
  dsimp only
  generalize hdue : (w.retryAt.keys.filter (· ∈ w.pendingHeads)).biUnion
    (fun head => ((w.retryAt.get head).map (·.dueAt)).toFinset) = due
  have hmem : retry.dueAt ∈ due := by
    rw [← hdue, Finset.mem_biUnion]
    refine ⟨head, Finset.mem_filter.mpr ⟨Table.mem_keys_of_get hretry, hpending⟩, ?_⟩
    rw [hretry]
    simp
  cases hleast : Table.least due with
  | none =>
    rw [Table.least_none hleast] at hmem
    cases hmem
  | some first => exact Table.least_le hleast hmem

/-! ## 2. Reads

Between the snapshot of a pass and a read of it the database may have committed anything. Reads are therefore
described by what holds of every reached database: a pending head is stored, and content that is not found is
awaited or gone. -/

theorem contentIsTerminal_eq (t : EventTables) (id : ShortEventId) :
    contentIsTerminal (t.eventsContentState.get id) = !(contentClass t id).referenced := by
  unfold contentClass
  rcases t.eventsContentState.get id with _ | _ | _ | _ | _ <;> rfl

theorem mem_getHeadsEventsTx {t : EventTables} {author : RostraId} {id : ShortEventId} :
    id ∈ getHeadsEventsTx t author ↔ (author, id) ∈ t.eventsHeads := by
  simp [getHeadsEventsTx]

section Reached

variable [Primitives]

/-- What is known of the tables of a reached database. -/
structure Footing (D : Set VerifiedEvent) (db : Database) : Prop where
  ground : OnGround D (fun t => Balanced t ∧ Measured D t) db.ev
  owned : ∀ k ∈ db.ev.eventsHeads, ∃ e, db.ev.events.get k.2 = some e ∧ e.author = k.1

/-- Content that is not found is missing or gone. -/
theorem Footing.content_none {D : Set VerifiedEvent} {db : Database} (h : Footing D db)
    {id : ShortEventId} {e : Event} (he : db.ev.events.get id = some e)
    (hnone : getEventContent db.ev id = none) :
    contentClass db.ev id = .missing ∨ (contentClass db.ev id).referenced = false := by
  cases hc : contentClass db.ev id with
  | missing => exact .inl rfl
  | current =>
    have hheld := h.ground.2.2.held id e he hc
    have hstate : db.ev.eventsContentState.get id = none := classOf_eq_current.mp hc
    unfold getEventContent at hnone
    rw [he] at hnone
    dsimp only at hnone
    rw [hstate] at hnone
    dsimp only at hnone
    rw [hnone] at hheld
    cases hheld
  | deleted => exact .inr rfl
  | pruned => exact .inr rfl
  | invalid => exact .inr rfl

/-- What a commit does to the self heads and to the content of an event that is stored. -/
structure Carried (env : Env) (db : Database) (op : Op) (db' : Database) (id : ShortEventId) : Prop where
  gone : (contentClass db.ev id).referenced = false → (contentClass db'.ev id).referenced = false
  missing : ∀ e, db.ev.events.get id = some e → contentClass db.ev id = .missing →
    contentClass db'.ev id = .missing ∨ (contentClass db'.ev id).referenced = false ∨
      .newContent e.author id ∈ signals env db op

theorem Footing.step {env : Env} {D : Set VerifiedEvent} (hcf : CollisionFree D) {db db' : Database}
    (h : Footing D db) {op : Op} (hop : ∀ v ∈ op.delivered, v ∈ D) (hok : step env db op = .ok db') :
    Footing D db' ∧ ∀ id e, db.ev.events.get id = some e → Carried env db op db' id := by
  have hkeeps := (balanced_keeps D).and (measured_keeps D)
  have hground' : OnGround D (fun t => Balanced t ∧ Measured D t) db'.ev :=
    (step_keeps hkeeps hcf h.ground op hop).of_ok hok
  have heffects := (step_effects hkeeps hcf h.ground op hop).of_ok hok
  have hheralded := step_heralded hok
  refine ⟨⟨hground', fun k hk => ?_⟩, fun id e he => ⟨heffects.unreferenced he, fun e' he' hm => ?_⟩⟩
  · rcases hheralded.fresh k hk with hold | ⟨-, hnew⟩
    · obtain ⟨e, he, hauthor⟩ := h.owned k hold
      exact ⟨e, hheralded.headers _ e he, hauthor⟩
    · exact hnew
  · rw [he] at he'
    cases he'
    cases hc : contentClass db'.ev id with
    | missing => exact .inl rfl
    | current =>
      refine .inr (.inr ?_)
      rcases hheralded.content id hc with hold | ⟨author, hin⟩
      · rw [hm] at hold
        cases hold
      · -- the event that the announcement is about is the one that is stored
        obtain ⟨v, hscope, rfl, rfl⟩ := mem_signals_newContent hin
        have hv : v ∈ D := by
          rcases hscope with hv | ⟨id', e', he', rfl⟩
          · exact hop v hv
          · exact h.ground.1.keyed.mem he'
        rw [h.ground.1.keyed.event_eq hcf hv he]
        exact hin
    | deleted => exact .inr (.inl rfl)
    | pruned => exact .inr (.inl rfl)
    | invalid => exact .inr (.inl rfl)

theorem footing_reached (env : Env) {D : Set VerifiedEvent} (hcf : CollisionFree D) (ops : List Op)
    (hD : DeliveredFrom D ops) : Footing D (reached env ops) := by
  refine run_invariant (J := Footing D) ops {} (fun op hop db db' hdb hok => ?_) ?_
  · exact (hdb.step hcf (hD op hop) hok).1
  · exact ⟨⟨grounded_empty D, balanced_empty, measured_empty D⟩, fun k hk => by cases hk⟩

/-! ## 3. The invariant

A pass goes over the recipients of one head, and counts those that did not take it. If it counts none, the head was
acknowledged by all followers of its snapshot (`Fed`), and what remains is that the snapshot was not outdated by
the time the head became one (`TakenAt`). -/

/-- Since a snapshot: no change of followers was observed, and none of the heads has become one. -/
def Undisturbed (heads : Finset ShortEventId) : BroadcastLabel → Prop
  | .followersChanged => False
  | .headsAdded added => Disjoint heads added
  | .snapshot _ | .fed .. => True

/-- A snapshot of the followers, and what has been seen since. -/
def TakenAt (trace : List BroadcastLabel) (followers : Finset RostraId) (heads : Finset ShortEventId)
    (since : List BroadcastLabel) : Prop :=
  ∃ before, trace = before ++ .snapshot followers :: since ∧ ∀ l ∈ since, Undisturbed heads l

/-- A peer has acknowledged a head. -/
def Fed (since : List BroadcastLabel) (head : ShortEventId) (peer : RostraId) : Prop :=
  ∃ event content outcome, .fed head event content peer outcome ∈ since ∧ outcome.acknowledges = true

/-- **We ourselves and all followers have acknowledged a head**, since it became one: the followers of a
snapshot that is younger than the last change of followers the task has observed. -/
def Acknowledged (selfId : RostraId) (trace : List BroadcastLabel) (head : ShortEventId) : Prop :=
  ∃ followers since, TakenAt trace followers {head} since ∧ Fed since head selfId ∧
    ∀ peer ∈ followers, Fed since head peer

section Traces

variable {trace since shown : List BroadcastLabel} {followers : Finset RostraId}
  {heads heads' : Finset ShortEventId} {head : ShortEventId} {peer selfId : RostraId}

omit [Primitives]

theorem Undisturbed.mono {l : BroadcastLabel} (h : Undisturbed heads l) (hsub : heads' ⊆ heads) :
    Undisturbed heads' l := by
  cases l with
  | headsAdded added => exact Finset.disjoint_of_subset_left hsub h
  | followersChanged => exact h
  | snapshot f => trivial
  | fed head event content peer outcome => trivial

theorem TakenAt.mono (h : TakenAt trace followers heads since) (hsub : heads' ⊆ heads) :
    TakenAt trace followers heads' since := by
  obtain ⟨before, heq, hsince⟩ := h
  exact ⟨before, heq, fun l hl => (hsince l hl).mono hsub⟩

theorem TakenAt.append (h : TakenAt trace followers heads since)
    (hshown : ∀ l ∈ shown, Undisturbed heads l) :
    TakenAt (trace ++ shown) followers heads (since ++ shown) := by
  obtain ⟨before, rfl, hsince⟩ := h
  refine ⟨before, by simp, fun l hl => ?_⟩
  rcases List.mem_append.mp hl with hl | hl
  · exact hsince l hl
  · exact hshown l hl

theorem Fed.append (h : Fed since head peer) (shown : List BroadcastLabel) :
    Fed (since ++ shown) head peer := by
  obtain ⟨event, content, outcome, hin, hack⟩ := h
  exact ⟨event, content, outcome, List.mem_append_left _ hin, hack⟩

theorem Acknowledged.append (h : Acknowledged selfId trace head)
    (hshown : ∀ l ∈ shown, Undisturbed {head} l) : Acknowledged selfId (trace ++ shown) head := by
  obtain ⟨followers, since, htaken, hself, hall⟩ := h
  exact ⟨followers, since ++ shown, htaken.append hshown, hself.append shown,
    fun peer hpeer => (hall peer hpeer).append shown⟩

end Traces

namespace BroadcastWorld

/-- The content of a head is deleted, pruned or invalid. -/
def Terminal (w : BroadcastWorld) (head : ShortEventId) : Prop :=
  contentIsTerminal (w.publisher.db.ev.eventsContentState.get head) = true

/-- Why a scan may have passed a head. -/
def Excused (selfId : RostraId) (w : BroadcastWorld) (head : ShortEventId) : Prop :=
  (w.retryAt.get head).isSome ∨ contentClass w.publisher.db.ev head = .missing ∨
    w.newContent.Holds (selfId, head) ∨ .newContent selfId head ∈ w.publisher.hooks

end BroadcastWorld

/-- The task will look at a pending head before it waits. -/
def BroadcastPc.Awaits (head : ShortEventId) : BroadcastPc → Prop
  | .scanning _ todo | .readState _ todo _ => head ∈ todo
  | .readEvent _ todo head' | .readContent _ todo head' _ => head = head' ∨ head ∈ todo
  | .arming | .waiting _ => False
  | _ => True

/-- The task will replace the pending heads before it looks at them. -/
def BroadcastPc.Reconciles : BroadcastPc → Prop
  | .reconciling _ | .serviceContent true | .serviceFollowers true | .stopped => True
  | _ => False

namespace BroadcastWorld

/-- **How a head is not forgotten.** It was acknowledged by all, or the signal about it is still to be received, or
its content is gone, or it is pending and somebody looks after it, or the task is about to read all heads anew. -/
def Cared (selfId : RostraId) (w : BroadcastWorld) (trace : List BroadcastLabel)
    (head : ShortEventId) : Prop :=
  Acknowledged selfId trace head ∨
  (w.newHeads.Holds (selfId, head) ∨ .newHead selfId head ∈ w.publisher.hooks) ∨
  w.Terminal head ∨
  (head ∈ w.pendingHeads ∧ (w.pc.Awaits head ∨ w.Excused selfId head)) ∨
  w.pc.Reconciles

/-- What is known of the pass that is going on. -/
def Placed (selfId : RostraId) (w : BroadcastWorld) (trace : List BroadcastLabel) : Prop :=
  match w.pc with
  | .scanning followers todo =>
    todo ⊆ w.pendingHeads ∧ ∃ since, TakenAt trace followers w.pendingHeads since
  | .readEvent followers todo head | .readContent followers todo head _
  | .readState followers todo head =>
    (head ∈ w.pendingHeads ∧ todo ⊆ w.pendingHeads.erase head) ∧
      ∃ since, TakenAt trace followers w.pendingHeads since
  | .broadcasting pass => pass.head ∈ w.pendingHeads ∧ ∃ since,
      TakenAt trace pass.followers w.pendingHeads since ∧
      (pass.errors = 0 → pass.timeouts = 0 →
        (pass.selfDone = true → Fed since pass.head selfId) ∧
          ∀ peer ∈ pass.followers, peer ∈ pass.todo ∨ Fed since pass.head peer)
  | _ => True

/-- **The invariant of the broadcaster.** The watches make up for outstanding hooks, what is pending is stored, the
pass is where its locals say, and the timer is set for the next retry. -/
structure Sound (env : Env) (D : Set VerifiedEvent) (w : BroadcastWorld) (trace : List BroadcastLabel) :
    Prop where
  current : w.publisher.Current env
  footing : Footing D w.publisher.db
  stored : ∀ head ∈ w.pendingHeads, ∃ e, w.publisher.db.ev.events.get head = some e ∧
    e.author = env.selfId
  placed : w.Placed env.selfId trace
  timer : ∀ t, w.pc = .waiting t → ∀ head ∈ w.pendingHeads, ∀ retry,
    w.retryAt.get head = some retry → t ≤ retry.dueAt
  cared : ∀ head ∈ getHeadsEventsTx w.publisher.db.ev env.selfId, w.Cared env.selfId trace head

section Around

variable {env : Env} {D : Set VerifiedEvent} {w w' : BroadcastWorld}
  {trace shown : List BroadcastLabel}

omit [Primitives] in
/-- A pass goes on over what does not disturb its heads. -/
theorem Placed.append {selfId : RostraId} (h : w.Placed selfId trace) (hpc : w'.pc = w.pc)
    (hpending : w'.pendingHeads = w.pendingHeads)
    (hshown : ∀ l ∈ shown, Undisturbed w.pendingHeads l) : w'.Placed selfId (trace ++ shown) := by
  unfold Placed at *
  rw [hpc, hpending]
  cases hw : w.pc with
  | scanning followers todo =>
    rw [hw] at h
    obtain ⟨htodo, since, htaken⟩ := h
    exact ⟨htodo, since ++ shown, htaken.append hshown⟩
  | readEvent followers todo head =>
    rw [hw] at h
    obtain ⟨hhead, since, htaken⟩ := h
    exact ⟨hhead, since ++ shown, htaken.append hshown⟩
  | readContent followers todo head event =>
    rw [hw] at h
    obtain ⟨hhead, since, htaken⟩ := h
    exact ⟨hhead, since ++ shown, htaken.append hshown⟩
  | readState followers todo head =>
    rw [hw] at h
    obtain ⟨hhead, since, htaken⟩ := h
    exact ⟨hhead, since ++ shown, htaken.append hshown⟩
  | broadcasting pass =>
    rw [hw] at h
    obtain ⟨hhead, since, htaken, hfed⟩ := h
    refine ⟨hhead, since ++ shown, htaken.append hshown, fun herrors htimeouts => ?_⟩
    obtain ⟨hself, hall⟩ := hfed herrors htimeouts
    exact ⟨fun hdone => (hself hdone).append shown,
      fun peer hpeer => (hall peer hpeer).imp_right fun h => h.append shown⟩
  | _ => trivial

/-- Awaited content comes with a signal, or not at all. -/
theorem Excused.commit {db' : Database} {op : Op} {head : ShortEventId} {e : Event}
    (h : w.Excused env.selfId head) (hnone : w.publisher.hooks = [])
    (he : w.publisher.db.ev.events.get head = some e) (hauthor : e.author = env.selfId)
    (hcarried : Carried env w.publisher.db op db' head) (hdb : w'.publisher.db = db')
    (hhooks : w'.publisher.hooks = signals env w.publisher.db op)
    (hretry : w'.retryAt = w.retryAt) (hcontent : w'.newContent = w.newContent) :
    w'.Terminal head ∨ w'.Excused env.selfId head := by
  rcases h with h | h | h | h
  · exact .inr (.inl (hretry ▸ h))
  · rcases hcarried.missing e he h with hm | hgone | hsignal
    · exact .inr (.inr (.inl (by rw [hdb]; exact hm)))
    · refine .inl ?_
      unfold Terminal
      rw [contentIsTerminal_eq, hdb, hgone]
      rfl
    · refine .inr (.inr (.inr (.inr ?_)))
      rw [hhooks, ← hauthor]
      exact hsignal
  · exact .inr (.inr (.inr (.inl (hcontent ▸ h))))
  · rw [hnone] at h
    cases h

/-- A transaction commits. -/
theorem Sound.commit (hcf : CollisionFree D) {op : Op} (hop : ∀ v ∈ op.delivered, v ∈ D)
    {p : Publisher} (h : w.Sound env D trace) (hp : w.publisher.commit env op = some p) :
    ({ w with publisher := p } : BroadcastWorld).Sound env D (trace ++
      [.headsAdded (getHeadsEventsTx p.db.ev env.selfId \
        getHeadsEventsTx w.publisher.db.ev env.selfId)]) := by
  obtain ⟨hcurrent, hnone, hhooks, hok, -⟩ := h.current.commit hp
  obtain ⟨hfooting, hcarried⟩ := h.footing.step hcf hop hok
  have hheralded := step_heralded hok
  generalize hadded : getHeadsEventsTx p.db.ev env.selfId \
    getHeadsEventsTx w.publisher.db.ev env.selfId = added
  -- a head that is added is no event that was here
  have hdisjoint : Disjoint w.pendingHeads added := by
    rw [Finset.disjoint_left, ← hadded]
    intro head hpending hin
    obtain ⟨hnew, hold⟩ := Finset.mem_sdiff.mp hin
    rcases hheralded.fresh _ (mem_getHeadsEventsTx.mp hnew) with hk | ⟨hk, -⟩
    · exact hold (mem_getHeadsEventsTx.mpr hk)
    · obtain ⟨e, he, -⟩ := h.stored head hpending
      rw [show w.publisher.db.ev.events.get head = none from hk] at he
      cases he
  refine ⟨hcurrent, hfooting, fun head hpending => ?_, ?_, h.timer, fun head hhead => ?_⟩
  · obtain ⟨e, he, hauthor⟩ := h.stored head hpending
    exact ⟨e, hheralded.headers head e he, hauthor⟩
  · refine h.placed.append rfl rfl fun l hl => ?_
    rw [List.mem_singleton.mp hl]
    exact hdisjoint
  · by_cases hold : head ∈ getHeadsEventsTx w.publisher.db.ev env.selfId
    · obtain ⟨e, he, hauthor⟩ := h.footing.owned _ (mem_getHeadsEventsTx.mp hold)
      rcases h.cared head hold with hack | (hsignal | hsignal) | hterminal | ⟨hpending, hexp⟩ | hrec
      · refine .inl (hack.append fun l hl => ?_)
        rw [List.mem_singleton.mp hl]
        refine Finset.disjoint_singleton_left.mpr fun hin => ?_
        rw [← hadded] at hin
        exact (Finset.mem_sdiff.mp hin).2 hold
      · exact .inr (.inl (.inl hsignal))
      · rw [hnone] at hsignal
        cases hsignal
      · refine .inr (.inr (.inl ?_))
        unfold Terminal at *
        rw [contentIsTerminal_eq, Bool.not_eq_true'] at hterminal ⊢
        exact (hcarried head e he).gone hterminal
      · rcases hexp with hawaits | hexcused
        · exact .inr (.inr (.inr (.inl ⟨hpending, .inl hawaits⟩)))
        · have hlater : ({ w with publisher := p } : BroadcastWorld).Terminal head ∨
              ({ w with publisher := p } : BroadcastWorld).Excused env.selfId head :=
            hexcused.commit hnone he hauthor (hcarried head e he) rfl hhooks rfl rfl
          rcases hlater with hterminal | hexcused
          · exact .inr (.inr (.inl hterminal))
          · exact .inr (.inr (.inr (.inl ⟨hpending, .inr hexcused⟩)))
      · exact .inr (.inr (.inr (.inr hrec)))
    · have hk := mem_getHeadsEventsTx.mp hhead
      rcases hheralded.heads _ hk with hin | hin
      · exact absurd (mem_getHeadsEventsTx.mpr hin) hold
      · refine .inr (.inl (.inr ?_))
        rw [← hhooks] at hin
        exact hin

omit [Primitives] in
/-- What a hook does to the parts of the world that heads are cared for by. -/
theorem hear_cases (w : BroadcastWorld) (s : Signal) (p : Publisher) :
    (w.hear s p).publisher = p ∧ (w.hear s p).pc = w.pc ∧
    (w.hear s p).pendingHeads = w.pendingHeads ∧ (w.hear s p).retryAt = w.retryAt ∧
    (∀ v, w.newHeads.Holds v ∨ s = .newHead v.1 v.2 → (w.hear s p).newHeads.Holds v) ∧
    ∀ v, w.newContent.Holds v ∨ s = .newContent v.1 v.2 → (w.hear s p).newContent.Holds v := by
  unfold hear
  split
  · next author id =>
    refine ⟨rfl, rfl, rfl, rfl, fun v hv => ?_, fun v hv => ?_⟩
    · rcases hv with hv | hv
      · exact hv.send _ _
      · cases hv
        exact Broadcast.Receiver.holds_send _ _ _
    · exact hv.resolve_right nofun
  · next author id =>
    refine ⟨rfl, rfl, rfl, rfl, fun v hv => ?_, fun v hv => ?_⟩
    · exact hv.resolve_right nofun
    · rcases hv with hv | hv
      · exact hv.send _ _
      · cases hv
        exact Broadcast.Receiver.holds_send _ _ _
  · exact ⟨rfl, rfl, rfl, rfl, fun v hv => hv.resolve_right nofun,
      fun v hv => hv.resolve_right nofun⟩
  · next hhead hcontent _ =>
    exact ⟨rfl, rfl, rfl, rfl, fun v hv => hv.resolve_right (hhead _ _),
      fun v hv => hv.resolve_right (hcontent _ _)⟩

/-- A hook runs. -/
theorem Sound.hook {s : Signal} {p : Publisher} (h : w.Sound env D trace)
    (hp : w.publisher.publish = some (s, p)) : (w.hear s p).Sound env D trace := by
  obtain ⟨hcurrent, hdb, hhooks, -⟩ := h.current.publish hp
  obtain ⟨hpublisher, hpc, hpending, hretry, hheads, hcontent⟩ := w.hear_cases s p
  have hplaced : (w.hear s p).Placed env.selfId (trace ++ []) :=
    h.placed.append hpc hpending (by simp)
  rw [List.append_nil] at hplaced
  refine ⟨by rw [hpublisher]; exact hcurrent, ?_, fun head hin => ?_, hplaced, fun t ht head hin retry hr => ?_,
    fun head hin => ?_⟩
  · rw [hpublisher, hdb]
    exact h.footing
  · rw [hpublisher, hdb]
    exact h.stored head (hpending ▸ hin)
  · exact h.timer t (hpc ▸ ht) head (hpending ▸ hin) retry (hretry ▸ hr)
  · rw [hpublisher, hdb] at hin
    have hleft : ∀ {x : Signal}, x ∈ w.publisher.hooks → s = x ∨ x ∈ p.hooks := by
      intro x hx
      rw [hhooks] at hx
      exact (List.mem_cons.mp hx).imp Eq.symm id
    rcases h.cared head hin with hack | hsignal | hterminal | ⟨hp', hexp⟩ | hrec
    · exact .inl hack
    · refine .inr (.inl ?_)
      rcases hsignal with hsignal | hsignal
      · exact .inl (hheads _ (.inl hsignal))
      · rcases hleft hsignal with heq | hlater
        · exact .inl (hheads _ (.inr heq))
        · exact .inr (by rw [hpublisher]; exact hlater)
    · refine .inr (.inr (.inl ?_))
      unfold Terminal at *
      rw [hpublisher, hdb]
      exact hterminal
    · refine .inr (.inr (.inr (.inl ⟨hpending ▸ hp', ?_⟩)))
      rcases hexp with hawaits | hr | hm | hheld | hhook
      · exact .inl (hpc ▸ hawaits)
      · exact .inr (.inl (hretry ▸ hr))
      · exact .inr (.inr (.inl (by rw [hpublisher, hdb]; exact hm)))
      · exact .inr (.inr (.inr (.inl (hcontent _ (.inl hheld)))))
      · rcases hleft hhook with heq | hlater
        · exact .inr (.inr (.inr (.inl (hcontent _ (.inr heq)))))
        · exact .inr (.inr (.inr (.inr (by rw [hpublisher]; exact hlater))))
    · exact .inr (.inr (.inr (.inr (hpc ▸ hrec))))

theorem Sound.tick (h : w.Sound env D trace) (now : Instant) :
    ({ w with now := now } : BroadcastWorld).Sound env D trace :=
  ⟨h.current, h.footing, h.stored, h.placed, h.timer, h.cared⟩

end Around

/-! ## 4. The task

One lemma for each statement of the loop. Almost all of them are instances of `Sound.moves`, which asks where the
pass is and what has become of the heads that were pending. -/

section Task

variable {env : Env} {D : Set VerifiedEvent} {policy : BroadcastPolicy} {w w' : BroadcastWorld}
  {trace shown : List BroadcastLabel}

/-- A step after which the pending heads will be replaced. -/
theorem Sound.reconciles {trace' : List BroadcastLabel} (h : w.Sound env D trace)
    (hpublisher : w'.publisher = w.publisher) (hpending : w'.pendingHeads = w.pendingHeads)
    (hrec : w'.pc.Reconciles) : w'.Sound env D trace' := by
  refine ⟨by rw [hpublisher]; exact h.current, by rw [hpublisher]; exact h.footing,
    by rw [hpublisher, hpending]; exact h.stored, ?_, fun t ht => ?_,
    fun head _ => .inr (.inr (.inr (.inr hrec)))⟩
  · unfold Placed
    cases hpc : w'.pc with
    | reconciling serviced => trivial
    | serviceContent shouldReconcile => trivial
    | serviceFollowers shouldReconcile => trivial
    | stopped => trivial
    | _ =>
      rw [hpc] at hrec
      exact hrec.elim
  · rw [ht] at hrec
    exact hrec.elim

/-- **Any other step**: what is to be shown is where the pass is, and what becomes of the heads that were
pending. -/
theorem Sound.moves (h : w.Sound env D trace) (hrec : ¬w.pc.Reconciles)
    (hpublisher : w'.publisher = w.publisher) (hpending : w'.pendingHeads ⊆ w.pendingHeads)
    (hshown : ∀ l ∈ shown, ∀ heads, Undisturbed heads l)
    (hplaced : w'.Placed env.selfId (trace ++ shown))
    (htimer : ∀ t, w'.pc = .waiting t → ∀ head ∈ w'.pendingHeads, ∀ retry,
      w'.retryAt.get head = some retry → t ≤ retry.dueAt)
    (hheads : ∀ head, w.newHeads.Holds (env.selfId, head) → w'.newHeads.Holds (env.selfId, head))
    (hexp : ∀ head ∈ w.pendingHeads, w.pc.Awaits head ∨ w.Excused env.selfId head →
      Acknowledged env.selfId (trace ++ shown) head ∨ w.Terminal head ∨
        (head ∈ w'.pendingHeads ∧ (w'.pc.Awaits head ∨ w'.Excused env.selfId head))) :
    w'.Sound env D (trace ++ shown) := by
  have hterminal : ∀ head, w.Terminal head → w'.Terminal head := by
    intro head hhead
    unfold Terminal at *
    rw [hpublisher]
    exact hhead
  refine ⟨by rw [hpublisher]; exact h.current, by rw [hpublisher]; exact h.footing,
    fun head hin => by rw [hpublisher]; exact h.stored head (hpending hin), hplaced, htimer,
    fun head hin => ?_⟩
  rw [hpublisher] at hin
  rcases h.cared head hin with hack | hsignal | hgone | ⟨hin, hwhy⟩ | hreconciles
  · exact .inl (hack.append fun l hl => hshown l hl _)
  · refine .inr (.inl ?_)
    rw [hpublisher]
    exact hsignal.imp_left (hheads head)
  · exact .inr (.inr (.inl (hterminal head hgone)))
  · rcases hexp head hin hwhy with hack | hgone | hkept
    · exact .inl hack
    · exact .inr (.inr (.inl (hterminal head hgone)))
    · exact .inr (.inr (.inr (.inl hkept)))
  · exact absurd hreconciles hrec

/-- A step that leaves the collections alone and goes where every pending head will be looked at. -/
theorem Sound.turns (h : w.Sound env D trace) (hrec : ¬w.pc.Reconciles)
    (hpublisher : w'.publisher = w.publisher) (hpending : w'.pendingHeads = w.pendingHeads)
    (hplaced : w'.Placed env.selfId trace) (hpc : ∀ head, w'.pc.Awaits head)
    (hheads : ∀ head, w.newHeads.Holds (env.selfId, head) → w'.newHeads.Holds (env.selfId, head)) :
    w'.Sound env D trace := by
  rw [← List.append_nil trace] at hplaced ⊢
  refine h.moves hrec hpublisher hpending.subset (by simp) hplaced (fun t ht head _ => ?_) hheads
    fun head hin _ => .inr (.inr ⟨hpending ▸ hin, .inl (hpc head)⟩)
  have hfalse := hpc head
  rw [ht] at hfalse
  exact hfalse.elim

/-- `reconcile_pending_heads`. -/
theorem Sound.reconciled (h : w.Sound env D trace) (serviced : Bool) :
    ({ w.reconcilePendingHeads env.selfId with
      pc := if serviced then .snapshot else .serviceHeads } : BroadcastWorld).Sound env D trace := by
  have hplain : ∀ head, (if serviced then BroadcastPc.snapshot else .serviceHeads).Awaits head := by
    intro head
    cases serviced with
    | true => trivial
    | false => trivial
  refine ⟨h.current, h.footing, fun head hin => ?_, ?_, fun t ht head => ?_, fun head hin => ?_⟩
  · exact h.footing.owned _ (mem_getHeadsEventsTx.mp hin)
  · cases serviced with
    | true => trivial
    | false => trivial
  · have hfalse := hplain head
    rw [show (if serviced then BroadcastPc.snapshot else .serviceHeads) = _ from ht] at hfalse
    exact hfalse.elim
  · exact .inr (.inr (.inr (.inl ⟨hin, .inl (hplain head)⟩)))

omit [Primitives] in
/-- After a reconciliation only pending heads have a retry. -/
theorem reconcilePendingHeads_retained (selfId : RostraId) (w : BroadcastWorld) {head : ShortEventId}
    (h : ((w.reconcilePendingHeads selfId).retryAt.get head).isSome) :
    head ∈ (w.reconcilePendingHeads selfId).pendingHeads := by
  unfold reconcilePendingHeads at *
  dsimp only at *
  rw [Table.get_retain] at h
  split at h
  · next hin => exact of_decide_eq_true hin
  · cases h

omit [Primitives] in
/-- Receiving about others loses nothing about us. -/
theorem holds_recv_other {r r' : Broadcast.Receiver (RostraId × ShortEventId)}
    {v sent : RostraId × ShortEventId} (hrecv : r.recv = some (.ok sent, r')) (hne : sent ≠ v)
    (h : r.Holds v) : r'.Holds v := by
  rcases h.recv hrecv with h | h | ⟨n, h⟩
  · exact h
  · cases h
    exact absurd rfl hne
  · cases h

/-- `service_pending_notifications`. -/
theorem Sound.serviceHeads (h : w.Sound env D trace) (hpc : w.pc = .serviceHeads)
    (hgo : w.go env.selfId policy = some (w', shown)) : w'.Sound env D (trace ++ shown) := by
  have hrec : ¬w.pc.Reconciles := by
    rw [hpc]
    exact id
  unfold go at hgo
  rw [hpc] at hgo
  dsimp only at hgo
  split at hgo
  · cases hgo
    rw [List.append_nil]
    exact h.turns hrec rfl rfl trivial (fun _ => trivial) fun _ h => h
  · next author id r hrecv =>
    cases hgo
    rw [List.append_nil]
    by_cases hself : author = env.selfId
    · exact h.reconciles rfl rfl (by simp [hself, BroadcastPc.Reconciles])
    · refine h.turns hrec rfl rfl trivial (fun _ => trivial) fun head hheld => ?_
      exact holds_recv_other hrecv (fun heq => hself (congrArg Prod.fst heq)) hheld
  · cases hgo
    exact h.reconciles rfl rfl trivial

theorem Sound.serviceContent {shouldReconcile : Bool} (h : w.Sound env D trace)
    (hpc : w.pc = .serviceContent shouldReconcile)
    (hgo : w.go env.selfId policy = some (w', shown)) : w'.Sound env D (trace ++ shown) := by
  unfold go at hgo
  rw [hpc] at hgo
  dsimp only at hgo
  -- what is received is not looked at, as all pending heads are going to be
  have hgoes : ∀ r, ({ w with newContent := r, pc := .serviceFollowers shouldReconcile } :
      BroadcastWorld).Sound env D trace := by
    intro r
    cases shouldReconcile with
    | true => exact h.reconciles rfl rfl trivial
    | false =>
      refine h.turns ?_ rfl rfl trivial (fun _ => trivial) fun _ h => h
      rw [hpc]
      exact id
  split at hgo
  · cases hgo
    rw [List.append_nil]
    exact hgoes w.newContent
  · cases hgo
    rw [List.append_nil]
    exact hgoes _
  · cases hgo
    exact h.reconciles rfl rfl trivial

theorem Sound.serviceFollowers {shouldReconcile : Bool} (h : w.Sound env D trace)
    (hpc : w.pc = .serviceFollowers shouldReconcile)
    (hgo : w.go env.selfId policy = some (w', shown)) : w'.Sound env D (trace ++ shown) := by
  unfold go at hgo
  rw [hpc] at hgo
  dsimp only at hgo
  split at hgo
  · cases hgo
    rw [List.append_nil]
    cases shouldReconcile with
    | true => exact h.reconciles rfl rfl trivial
    | false =>
      refine h.turns ?_ rfl rfl trivial (fun _ => trivial) fun _ h => h
      rw [hpc]
      exact id
  · cases hgo
    exact h.reconciles rfl rfl trivial

/-- The snapshot that a pass is going to use. -/
theorem Sound.snapshot (h : w.Sound env D trace) (hpc : w.pc = .snapshot) :
    ({ w with pc := .scanning w.publisher.watches.selfFollowers w.pendingHeads } :
      BroadcastWorld).Sound env D (trace ++ [.snapshot w.publisher.watches.selfFollowers]) := by
  refine h.moves ?_ rfl subset_rfl (fun l hl heads => ?_) ?_ nofun (fun _ h => h) fun head hin _ => ?_
  · rw [hpc]
    exact id
  · rw [List.mem_singleton.mp hl]
    trivial
  · exact ⟨subset_rfl, [], trace, rfl, by simp⟩
  · exact .inr (.inr ⟨hin, .inl hin⟩)

/-- The next head of `take_one_ready_head`. -/
theorem Sound.scanning {followers : Finset RostraId} {todo : Finset ShortEventId}
    (h : w.Sound env D trace) (hpc : w.pc = .scanning followers todo)
    (hgo : w.go env.selfId policy = some (w', shown)) : w'.Sound env D (trace ++ shown) := by
  have hrec : ¬w.pc.Reconciles := by
    rw [hpc]
    exact id
  have hplaced := h.placed
  unfold Placed at hplaced
  rw [hpc] at hplaced
  obtain ⟨htodo, since, htaken⟩ := hplaced
  unfold go at hgo
  rw [hpc] at hgo
  dsimp only at hgo
  split at hgo
  · next hleast =>
    cases hgo
    refine h.moves hrec rfl subset_rfl (by simp) trivial nofun (fun _ h => h) fun head hin hwhy => ?_
    rw [hpc, Table.least_none hleast] at hwhy
    exact .inr (.inr ⟨hin, .inr (hwhy.resolve_left (Finset.notMem_empty head))⟩)
  · next first hleast =>
    have hfirst := Table.least_mem hleast
    split at hgo
    · next hlater =>
      cases hgo
      refine h.moves hrec rfl subset_rfl (by simp) ?_ nofun (fun _ h => h) fun head hin hwhy => ?_
      · rw [List.append_nil]
        exact ⟨(Finset.erase_subset _ _).trans htodo, since, htaken⟩
      · by_cases heq : head = first
        · -- its retry is not due
          refine .inr (.inr ⟨hin, .inr (.inl ?_)⟩)
          rw [heq]
          exact Option.isSome_of_any hlater
        · rw [hpc] at hwhy
          exact .inr (.inr ⟨hin, hwhy.imp_left fun hin => Finset.mem_erase_of_ne_of_mem heq hin⟩)
    · cases hgo
      refine h.moves hrec rfl subset_rfl (by simp) ?_ nofun (fun _ h => h) fun head hin hwhy => ?_
      · rw [List.append_nil]
        exact ⟨⟨htodo hfirst, Finset.erase_subset_erase _ htodo⟩, since, htaken⟩
      · rw [hpc] at hwhy
        refine .inr (.inr ⟨hin, hwhy.imp_left fun hin => ?_⟩)
        by_cases heq : head = first
        · exact .inl heq
        · exact .inr (Finset.mem_erase_of_ne_of_mem heq hin)

/-- `get_event`: a pending head is stored. -/
theorem Sound.readEvent {followers : Finset RostraId} {todo : Finset ShortEventId}
    {head : ShortEventId} (h : w.Sound env D trace) (hpc : w.pc = .readEvent followers todo head)
    (hgo : w.go env.selfId policy = some (w', shown)) : w'.Sound env D (trace ++ shown) := by
  have hrec : ¬w.pc.Reconciles := by
    rw [hpc]
    exact id
  have hplaced := h.placed
  unfold Placed at hplaced
  rw [hpc] at hplaced
  obtain ⟨hhead, since, htaken⟩ := hplaced
  obtain ⟨e, he, -⟩ := h.stored head hhead.1
  unfold go at hgo
  rw [hpc] at hgo
  dsimp only at hgo
  rw [he] at hgo
  cases hgo
  refine h.moves hrec rfl subset_rfl (by simp) ?_ nofun (fun _ h => h) fun head' hin hwhy => ?_
  · rw [List.append_nil]
    exact ⟨hhead, since, htaken⟩
  · rw [hpc] at hwhy
    exact .inr (.inr ⟨hin, hwhy⟩)

/-- `get_event_content`. -/
theorem Sound.readContent {followers : Finset RostraId} {todo : Finset ShortEventId}
    {head : ShortEventId} {event : Event} (h : w.Sound env D trace)
    (hpc : w.pc = .readContent followers todo head event)
    (hgo : w.go env.selfId policy = some (w', shown)) : w'.Sound env D (trace ++ shown) := by
  have hrec : ¬w.pc.Reconciles := by
    rw [hpc]
    exact id
  have hplaced := h.placed
  unfold Placed at hplaced
  rw [hpc] at hplaced
  obtain ⟨hhead, since, htaken⟩ := hplaced
  have hready : ∀ content, ({ w with
      pc := .broadcasting ⟨followers, head, event, content, false, followers, 0, 0⟩ } :
      BroadcastWorld).Sound env D trace := by
    intro content
    refine h.turns hrec rfl rfl ?_ (fun _ => trivial) fun _ h => h
    exact ⟨hhead.1, since, htaken, fun _ _ => ⟨(by rintro ⟨⟩), fun peer hpeer => .inl hpeer⟩⟩
  unfold go at hgo
  rw [hpc] at hgo
  dsimp only at hgo
  split at hgo
  · cases hgo
    rw [List.append_nil]
    exact hready _
  · next hnone =>
    split at hgo
    · cases hgo
      rw [List.append_nil]
      exact hready []
    · cases hgo
      refine h.moves hrec rfl subset_rfl (by simp) ?_ (by rintro _ ⟨⟩) (fun _ h => h) fun head' hin hwhy => ?_
      · rw [List.append_nil]
        exact ⟨hhead, since, htaken⟩
      · rw [hpc] at hwhy
        rcases hwhy with (rfl | hin') | hexcused
        · obtain ⟨e, he, -⟩ := h.stored head' hin
          rcases h.footing.content_none he hnone with hm | hgone
          · exact .inr (.inr ⟨hin, .inr (.inr (.inl hm))⟩)
          · refine .inr (.inl ?_)
            unfold Terminal
            rw [contentIsTerminal_eq, hgone]
            rfl
        · exact .inr (.inr ⟨hin, .inl hin'⟩)
        · exact .inr (.inr ⟨hin, .inr hexcused⟩)

/-- `get_event_content_state`. -/
theorem Sound.readState {followers : Finset RostraId} {todo : Finset ShortEventId}
    {head : ShortEventId} (h : w.Sound env D trace) (hpc : w.pc = .readState followers todo head)
    (hgo : w.go env.selfId policy = some (w', shown)) : w'.Sound env D (trace ++ shown) := by
  have hrec : ¬w.pc.Reconciles := by
    rw [hpc]
    exact id
  have hplaced := h.placed
  unfold Placed at hplaced
  rw [hpc] at hplaced
  obtain ⟨⟨hhead, htodo⟩, since, htaken⟩ := hplaced
  unfold go at hgo
  rw [hpc] at hgo
  dsimp only at hgo
  split at hgo
  · next hterminal =>
    cases hgo
    refine h.moves hrec rfl (Finset.erase_subset _ _) (by simp) ?_ nofun (fun _ h => h)
      fun head' hin hwhy => ?_
    · rw [List.append_nil]
      exact ⟨htodo, since, htaken.mono (Finset.erase_subset _ _)⟩
    · rw [hpc] at hwhy
      by_cases heq : head' = head
      · rw [heq]
        exact .inr (.inl hterminal)
      · exact .inr (.inr ⟨Finset.mem_erase_of_ne_of_mem heq hin, hwhy⟩)
  · cases hgo
    refine h.moves hrec rfl subset_rfl (by simp) ?_ nofun (fun _ h => h) fun head' hin hwhy => ?_
    · rw [List.append_nil]
      exact ⟨htodo.trans (Finset.erase_subset _ _), since, htaken⟩
    · rw [hpc] at hwhy
      exact .inr (.inr ⟨hin, hwhy⟩)

/-- The end of a pass. -/
theorem Sound.conclude {pass : BroadcastPass} (h : w.Sound env D trace)
    (hpc : w.pc = .broadcasting pass) (hdone : pass.selfDone = true) (htodo : pass.todo = ∅) :
    (w.conclude policy pass).Sound env D trace := by
  have hrec : ¬w.pc.Reconciles := by
    rw [hpc]
    exact id
  have hplaced := h.placed
  unfold Placed at hplaced
  rw [hpc] at hplaced
  obtain ⟨hhead, since, htaken, hfed⟩ := hplaced
  unfold BroadcastWorld.conclude
  split
  · exact h.turns hrec rfl rfl trivial (fun _ => trivial) fun _ h => h
  · next hok =>
    obtain ⟨herrors, htimeouts⟩ := not_or.mp hok
    obtain ⟨hself, hall⟩ := hfed (not_not.mp herrors) (not_not.mp htimeouts)
    have hack : Acknowledged env.selfId trace pass.head := by
      refine ⟨pass.followers, since, htaken.mono (Finset.singleton_subset_iff.mpr hhead), hself hdone,
        fun peer hpeer => (hall peer hpeer).resolve_left ?_⟩
      rw [htodo]
      exact Finset.notMem_empty peer
    rw [← List.append_nil trace] at hack ⊢
    refine h.moves hrec rfl (Finset.erase_subset _ _) (by simp) trivial nofun (fun _ h => h)
      fun head hin _ => ?_
    by_cases heq : head = pass.head
    · rw [heq]
      exact .inl hack
    · exact .inr (.inr ⟨Finset.mem_erase_of_ne_of_mem heq hin, .inl trivial⟩)

/-- A recipient is dealt with. -/
theorem Sound.feed {pass : BroadcastPass} {peer : RostraId} {outcome : FeedOutcome}
    (h : w.Sound env D trace) (hpc : w.pc = .broadcasting pass)
    (hfeed : w.feed env.selfId pass peer outcome = some (w', shown)) :
    w'.Sound env D (trace ++ shown) := by
  have hrec : ¬w.pc.Reconciles := by
    rw [hpc]
    exact id
  have hplaced := h.placed
  unfold Placed at hplaced
  rw [hpc] at hplaced
  obtain ⟨hhead, since, htaken, hfed⟩ := hplaced
  -- a recipient that is not counted has acknowledged the head
  have hcounted : ∀ l : List BroadcastLabel, (if outcome = .failed then pass.errors + 1
      else pass.errors) = 0 → (if outcome = .timedOut then pass.timeouts + 1 else pass.timeouts) = 0 →
      pass.errors = 0 ∧ pass.timeouts = 0 ∧
        Fed (l ++ [.fed pass.head pass.event pass.content peer outcome]) pass.head peer := by
    intro l herrors htimeouts
    cases outcome with
    | accepted => exact ⟨herrors, htimeouts, _, _, _, List.mem_append_right _ (List.mem_singleton_self _), rfl⟩
    | alreadyHave => exact ⟨herrors, htimeouts, _, _, _, List.mem_append_right _ (List.mem_singleton_self _), rfl⟩
    | failed => cases herrors
    | timedOut => cases htimeouts
  unfold BroadcastWorld.feed at hfeed
  dsimp only at hfeed
  generalize hlabels : [BroadcastLabel.fed pass.head pass.event pass.content peer outcome] = labels
    at hfeed hcounted
  have hquiet : ∀ l ∈ labels, ∀ heads, Undisturbed heads l := by
    intro l hl heads
    rw [← hlabels] at hl
    rw [List.mem_singleton.mp hl]
    trivial
  have htaken' := htaken.append fun l hl => hquiet l hl _
  split at hfeed
  · next hdone =>
    split at hfeed
    · next hpeer =>
      cases hfeed
      refine h.moves hrec rfl subset_rfl hquiet ?_ nofun (fun _ h => h)
        fun head hin _ => .inr (.inr ⟨hin, .inl trivial⟩)
      refine ⟨hhead, _, htaken', fun herrors htimeouts => ?_⟩
      obtain ⟨herrors, htimeouts, hthis⟩ := hcounted since herrors htimeouts
      obtain ⟨hself, hall⟩ := hfed herrors htimeouts
      refine ⟨fun hdone => (hself hdone).append _, fun other hother => ?_⟩
      by_cases heq : other = peer
      · rw [heq]
        exact .inr hthis
      · rcases hall other hother with htodo | hother
        · exact .inl (Finset.mem_erase_of_ne_of_mem heq htodo)
        · exact .inr (hother.append _)
    · cases hfeed
  · split at hfeed
    · next hpeer =>
      cases hfeed
      refine h.moves hrec rfl subset_rfl hquiet ?_ nofun (fun _ h => h)
        fun head hin _ => .inr (.inr ⟨hin, .inl trivial⟩)
      refine ⟨hhead, _, htaken', fun herrors htimeouts => ?_⟩
      obtain ⟨herrors, htimeouts, hthis⟩ := hcounted since herrors htimeouts
      obtain ⟨-, hall⟩ := hfed herrors htimeouts
      refine ⟨fun _ => hpeer ▸ hthis, fun other hother => ?_⟩
      exact (hall other hother).imp_right fun hother => hother.append _
    · cases hfeed

/-- `next_retry` is computed anew. -/
theorem Sound.arming (h : w.Sound env D trace) (hpc : w.pc = .arming) :
    ({ w with pc := .waiting w.nextRetry } : BroadcastWorld).Sound env D trace := by
  rw [← List.append_nil trace]
  refine h.moves ?_ rfl subset_rfl (by simp) trivial (fun t ht head hin retry hretry => ?_)
    (fun _ h => h) fun head hin hwhy => ?_
  · rw [hpc]
    exact id
  · cases ht
    exact nextRetry_le hin hretry
  · rw [hpc] at hwhy
    exact .inr (.inr ⟨hin, hwhy⟩)

/-- **A statement of the loop keeps the invariant.** It is the case split over the places of the loop; the argument
for each of them is a lemma above. -/
theorem Sound.go (h : w.Sound env D trace) (hgo : w.go env.selfId policy = some (w', shown)) :
    w'.Sound env D (trace ++ shown) := by
  cases hpc : w.pc with
  | reconciling serviced =>
    simp only [BroadcastWorld.go, hpc] at hgo
    cases hgo
    rw [List.append_nil]
    exact h.reconciled serviced
  | serviceHeads => exact h.serviceHeads hpc hgo
  | serviceContent shouldReconcile => exact h.serviceContent hpc hgo
  | serviceFollowers shouldReconcile => exact h.serviceFollowers hpc hgo
  | snapshot =>
    simp only [BroadcastWorld.go, hpc] at hgo
    cases hgo
    exact h.snapshot hpc
  | scanning followers todo => exact h.scanning hpc hgo
  | readEvent followers todo head => exact h.readEvent hpc hgo
  | readContent followers todo head event => exact h.readContent hpc hgo
  | readState followers todo head => exact h.readState hpc hgo
  | broadcasting pass =>
    simp only [BroadcastWorld.go, hpc, Option.ite_none_right_eq_some] at hgo
    obtain ⟨⟨hdone, htodo⟩, hgo⟩ := hgo
    cases hgo
    rw [List.append_nil]
    exact h.conclude hpc hdone htodo
  | arming =>
    simp only [BroadcastWorld.go, hpc] at hgo
    cases hgo
    rw [List.append_nil]
    exact h.arming hpc
  | waiting t =>
    simp only [BroadcastWorld.go, hpc] at hgo
    cases hgo
  | stopped =>
    simp only [BroadcastWorld.go, hpc] at hgo
    cases hgo

/-- While the task waits, a message that is not about its heads is dropped. -/
theorem Sound.ignored {t : Instant} (h : w.Sound env D trace) (hpc : w.pc = .waiting t)
    (hpublisher : w'.publisher = w.publisher) (hpending : w'.pendingHeads = w.pendingHeads)
    (hretry : w'.retryAt = w.retryAt) (hpc' : w'.pc = .arming)
    (hheads : ∀ head, w.newHeads.Holds (env.selfId, head) → w'.newHeads.Holds (env.selfId, head))
    (hcontent : ∀ head ∈ w.pendingHeads, w.newContent.Holds (env.selfId, head) →
      w'.newContent.Holds (env.selfId, head)) : w'.Sound env D trace := by
  rw [← List.append_nil trace]
  refine h.moves ?_ hpublisher hpending.subset (by simp) ?_ (fun t ht => ?_) hheads
    fun head hin hwhy => ?_
  · rw [hpc]
    exact id
  · unfold Placed
    rw [hpc']
    trivial
  · rw [hpc'] at ht
    cases ht
  · rw [hpc] at hwhy
    refine .inr (.inr ⟨hpending ▸ hin, .inr ?_⟩)
    rcases hwhy.resolve_left id with hr | hm | hheld | hhook
    · exact .inl (hretry ▸ hr)
    · exact .inr (.inl (by rw [hpublisher]; exact hm))
    · exact .inr (.inr (.inl (hcontent head hin hheld)))
    · exact .inr (.inr (.inr (by rw [hpublisher]; exact hhook)))

theorem Sound.recvHead {t : Instant} {result : Except ℕ (RostraId × ShortEventId)}
    {r : Broadcast.Receiver (RostraId × ShortEventId)} (h : w.Sound env D trace)
    (hpc : w.pc = .waiting t) (hrecv : w.newHeads.recv = some (result, r)) :
    ({ w with
      newHeads := r
      pc := match result with
        | .ok (author, _) => if author = env.selfId then .reconciling false else .arming
        | .error _ => .reconciling false } : BroadcastWorld).Sound env D trace := by
  cases result with
  | error n => exact h.reconciles rfl rfl trivial
  | ok sent =>
    obtain ⟨author, id⟩ := sent
    by_cases hself : author = env.selfId
    · exact h.reconciles rfl rfl (by simp [hself, BroadcastPc.Reconciles])
    · refine h.ignored hpc rfl rfl rfl (if_neg hself) (fun head hheld => ?_) fun _ _ h => h
      exact holds_recv_other hrecv (fun heq => hself (congrArg Prod.fst heq)) hheld

theorem Sound.recvContent {t : Instant} {result : Except ℕ (RostraId × ShortEventId)}
    {r : Broadcast.Receiver (RostraId × ShortEventId)} (h : w.Sound env D trace)
    (hpc : w.pc = .waiting t) (hrecv : w.newContent.recv = some (result, r)) :
    ({ w with
      newContent := r
      pc := match result with
        | .ok content =>
          if contentCompletesPending content env.selfId w.pendingHeads then .serviceHeads else .arming
        | .error _ => .reconciling false } : BroadcastWorld).Sound env D trace := by
  cases result with
  | error n => exact h.reconciles rfl rfl trivial
  | ok content =>
    by_cases hours : contentCompletesPending content env.selfId w.pendingHeads = true
    · simp only [hours, if_true]
      refine h.turns ?_ rfl rfl trivial (fun _ => trivial) fun _ h => h
      rw [hpc]
      exact id
    · refine h.ignored hpc rfl rfl rfl (if_neg hours) (fun _ h => h) fun head hin hheld => ?_
      refine holds_recv_other hrecv (fun heq => hours ?_) hheld
      rw [heq]
      simpa [contentCompletesPending] using hin

/-- **Every step keeps the invariant**, also those of others: commits, hooks, lost messages and the clock. -/
theorem Sound.step (hcf : CollisionFree D) {a : BroadcastAct}
    (ha : ∀ op, a = .commit op → ∀ v ∈ op.delivered, v ∈ D) (h : w.Sound env D trace)
    (hstep : w.step env policy a = some (w', shown)) : w'.Sound env D (trace ++ shown) := by
  cases a with
  | commit op =>
    simp only [BroadcastWorld.step, Option.map_eq_some_iff] at hstep
    obtain ⟨p, hp, hstep⟩ := hstep
    cases hstep
    exact h.commit hcf (ha op rfl) hp
  | hook =>
    simp only [BroadcastWorld.step, Option.map_eq_some_iff] at hstep
    obtain ⟨r, hp, hstep⟩ := hstep
    cases hstep
    rw [List.append_nil]
    exact h.hook hp
  | tick elapsed =>
    cases hstep
    rw [List.append_nil]
    exact h.tick _
  | recvHead =>
    simp only [BroadcastWorld.step] at hstep
    split at hstep
    · next t hpc =>
      obtain ⟨⟨result, r⟩, hrecv, hstep⟩ := Option.map_eq_some_iff.mp hstep
      have hsound := h.recvHead hpc hrecv
      rcases result with n | ⟨author, id⟩
      · cases hstep
        rw [List.append_nil]
        exact hsound
      · cases hstep
        rw [List.append_nil]
        exact hsound
    · cases hstep
  | recvContent =>
    simp only [BroadcastWorld.step] at hstep
    split at hstep
    · next t hpc =>
      obtain ⟨⟨result, r⟩, hrecv, hstep⟩ := Option.map_eq_some_iff.mp hstep
      have hsound := h.recvContent hpc hrecv
      cases result with
      | error n =>
        cases hstep
        rw [List.append_nil]
        exact hsound
      | ok content =>
        cases hstep
        rw [List.append_nil]
        exact hsound
    · cases hstep
  | followersChanged =>
    simp only [BroadcastWorld.step] at hstep
    split at hstep
    · split at hstep
      · cases hstep
      · cases hstep
        exact h.reconciles rfl rfl trivial
    · cases hstep
  | timer =>
    simp only [BroadcastWorld.step] at hstep
    split at hstep
    · next t hpc =>
      split at hstep
      · cases hstep
        rw [List.append_nil]
        refine h.turns ?_ rfl rfl trivial (fun _ => trivial) fun _ h => h
        rw [hpc]
        exact id
      · cases hstep
    · cases hstep
  | feed peer outcome =>
    simp only [BroadcastWorld.step] at hstep
    split at hstep
    · next pass hpc => exact h.feed hpc hstep
    · cases hstep
  | leave =>
    simp only [BroadcastWorld.step] at hstep
    split at hstep
    · cases hstep
      exact h.reconciles rfl rfl trivial
    · cases hstep
      exact h.reconciles rfl rfl trivial
    · cases hstep
      exact h.reconciles rfl rfl trivial
    · cases hstep
  | go => exact h.go hstep

end Task

end BroadcastWorld

/-- **The broadcaster forgets no head of its account**, in every interleaving that begins with a reached
database: while it waits and all hooks have run, every head was acknowledged by everybody, or is pending
with a retry that is not before the timer, or is pending and awaits its content, or has lost its content,
or will be looked at because of a message or a lag that is still to be read.  A reconciliation leaves
retries of pending heads only, and delays grow with the number of retries up to their bound. -/
theorem heads_never_forgotten (env : Env) (policy : BroadcastPolicy) {D : Set VerifiedEvent}
    (hcf : CollisionFree D) (before : List Op) (hbefore : DeliveredFrom D before)
    (acts : List BroadcastAct)
    (hacts : ∀ op, .commit op ∈ acts → ∀ v ∈ op.delivered, v ∈ D) :
    let world := (broadcastRan env policy (reached env before) acts).1
    let trace := (broadcastRan env policy (reached env before) acts).2
    (∀ timer, world.pc = .waiting timer → world.publisher.hooks = [] →
      ∀ head ∈ getHeadsEventsTx world.publisher.db.ev env.selfId,
        Acknowledged env.selfId trace head ∨
        (head ∈ world.pendingHeads ∧ ∃ retry, world.retryAt.get head = some retry ∧
          timer ≤ retry.dueAt) ∨
        (head ∈ world.pendingHeads ∧ contentClass world.publisher.db.ev head = .missing) ∨
        contentIsTerminal (world.publisher.db.ev.eventsContentState.get head) = true ∨
        ((env.selfId, head) ∈ world.newHeads.unread ∨ world.newHeads.missed ≠ 0 ∨
          (head ∈ world.pendingHeads ∧ (env.selfId, head) ∈ world.newContent.unread) ∨
          world.newContent.missed ≠ 0)) ∧
    (∀ serviced, world.pc = .reconciling serviced → ∀ world' shown,
      world.step env policy .go = some (world', shown) →
        ∀ head, (world'.retryAt.get head).isSome → head ∈ world'.pendingHeads) ∧
    (∀ n m, n ≤ m → broadcastRetryDelay n policy ≤ broadcastRetryDelay m policy) ∧
    ∀ n, broadcastRetryDelay n policy ≤ policy.retryMaxDelay ∧ retryFactor n < 2 ^ 32 ∧
      (policy.retryMaxDelay ≤ Duration.max → broadcastRetryDelay n policy =
        min (policy.retryInitialDelay * retryFactor n) policy.retryMaxDelay) := by
  intro world trace
  have hsound : world.Sound env D trace := by
    refine Machine.run_invariant (J := fun (w : BroadcastWorld) trace => w.Sound env D trace)
      ?_ acts
      fun a ha w trace w' shown h hstep => h.step hcf (fun op hop => hacts op (hop ▸ ha)) hstep
    exact ⟨.opened env _, footing_reached env hcf before hbefore, nofun, trivial, nofun,
      fun _ _ => .inr (.inr (.inr (.inr trivial)))⟩
  refine ⟨fun timer hpc hhooks head hhead => ?_, fun serviced hpc world' shown hgo head hretry => ?_,
    fun n m => broadcastRetryDelay_mono policy, fun n => ⟨broadcastRetryDelay_le policy n,
      retryFactor_lt n, fun hmax => broadcastRetryDelay_eq hmax n⟩⟩
  · rcases hsound.cared head hhead with hack | (hsignal | hhook) | hterminal | ⟨hin, hwhy⟩ | hrec
    · exact .inl hack
    · exact .inr (.inr (.inr (.inr (hsignal.imp_right .inl))))
    · rw [hhooks] at hhook
      cases hhook
    · exact .inr (.inr (.inr (.inl hterminal)))
    · rw [hpc] at hwhy
      rcases hwhy.resolve_left id with hretry | hm | hheld | hhook
      · obtain ⟨retry, hretry⟩ := Option.isSome_iff_exists.mp hretry
        exact .inr (.inl ⟨hin, retry, hretry, hsound.timer timer hpc head hin retry hretry⟩)
      · exact .inr (.inr (.inl ⟨hin, hm⟩))
      · rcases hheld with hunread | hlag
        · exact .inr (.inr (.inr (.inr (.inr (.inr (.inl ⟨hin, hunread⟩))))))
        · exact .inr (.inr (.inr (.inr (.inr (.inr (.inr hlag))))))
      · rw [hhooks] at hhook
        cases hhook
    · rw [hpc] at hrec
      exact hrec.elim
  · simp only [BroadcastWorld.step, BroadcastWorld.go, hpc] at hgo
    cases hgo
    exact BroadcastWorld.reconcilePendingHeads_retained env.selfId world hretry

end Reached

section Sample

attribute [local instance] Primitives.reference

def broadcastEnv : Env := ⟨toLex (1, 1), 0⟩

/-- A post of the account is committed with its content, found, and fed to the account's other nodes. -/
def sampleBroadcast : List BroadcastAct :=
  [.commit (.ingest [.payload samplePayload 5 {}]), .hook, .hook, .hook] ++ List.replicate 9 .go ++
    [.feed (toLex (1, 1)) .accepted] ++ List.replicate 7 .go

theorem heads_never_forgotten_sampleBroadcast :
    let world := (broadcastRan broadcastEnv BROADCAST_POLICY {} sampleBroadcast).1
    let trace := (broadcastRan broadcastEnv BROADCAST_POLICY {} sampleBroadcast).2
    1 ∈ getHeadsEventsTx world.publisher.db.ev broadcastEnv.selfId ∧ 1 ∉ world.pendingHeads ∧
      (Acknowledged broadcastEnv.selfId trace 1 ∨
        contentIsTerminal (world.publisher.db.ev.eventsContentState.get 1) = true ∨
        (broadcastEnv.selfId, 1) ∈ world.newHeads.unread ∨ world.newHeads.missed ≠ 0 ∨
        world.newContent.missed ≠ 0) := by
  intro world trace
  have hhead : 1 ∈ getHeadsEventsTx world.publisher.db.ev broadcastEnv.selfId := by decide +kernel
  have hdone : 1 ∉ world.pendingHeads := by decide +kernel
  have hdelivered : ∀ op, .commit op ∈ sampleBroadcast → ∀ v ∈ op.delivered,
      v ∈ ({samplePayload.event} : Set VerifiedEvent) := by
    intro op hop v hv
    simp only [sampleBroadcast, List.mem_append, List.mem_cons, List.mem_replicate, reduceCtorEq,
      BroadcastAct.commit.injEq, List.not_mem_nil, or_false, and_false] at hop
    subst hop
    simpa [Op.delivered, Delivery.event] using hv
  have hall := heads_never_forgotten broadcastEnv BROADCAST_POLICY
    (D := {samplePayload.event}) (Set.injOn_singleton _ _) [] (fun _ hop => absurd hop List.not_mem_nil)
    sampleBroadcast hdelivered
  have hcared := hall.1 (Duration.fromSecs (24 * 60 * 60)) (by decide +kernel) (by decide +kernel) 1
    hhead
  refine ⟨hhead, hdone, ?_⟩
  rcases hcared with hack | hin | hin | hterminal | hunread | hlag | hin | hlag
  · exact .inl hack
  · exact absurd hin.1 hdone
  · exact absurd hin.1 hdone
  · exact .inr (.inl hterminal)
  · exact .inr (.inr (.inl hunread))
  · exact .inr (.inr (.inr (.inl hlag)))
  · exact absurd hin.1 hdone
  · exact .inr (.inr (.inr (.inr hlag)))

end Sample

end Rostra.Client
