/-
# Long polls are answered

* The watch of the own head is written by every commit that changes the own heads (`headsTold_law`).  A handler
  that waits has looked at the heads since it last looked at the watch, so it waits only while there is nothing
  to answer (`waitHeadUpdate_wakes`).
* The broadcast of a new head names the author and the id of an envelope that its commit has stored
  (`headsStored_law`).  So the author that is answered beside an event is the author of that event, and the
  caller, who checks that against the signature, never has reason to reject the answer of an honest node
  (`waitFollowers_binds`).

In both cases the commit and its hook are two steps, and a handler may read in between. What it reads is then newer
than what the channel says, which is why a handler that waits must have looked at the tables after it looked at the
channel.
-/
import Rostra.Client.LongPolls
import Rostra.Proofs.Exchange
import Rostra.Proofs.Signals
import Rostra.Proofs.Watches

namespace Rostra.LongPolls

open Rostra Db Client P2p RequestHandler Outcome

section Laws

variable [Primitives] {env : Env}

/-! ## 1. What hooks tell

Two laws of `Proofs/Signals`, one for each channel. -/

/-- A payload moves no head and stores no header. -/
theorem processEventContentTx_heads (env : Env) (db : Database) (c : VerifiedEventContent) (now : Timestamp)
    (ledger : AdmissionState) (buffer : Option PayloadBuffer) :
    Ensures (processEventContentTx env {} db c now ledger buffer)
      (fun db' => db'.ev.eventsHeads = db.ev.eventsHeads ∧ db'.ev.events = db.ev.events) (fun _ => True) := by
  unfold processEventContentTx
  refine (ensures_true _).bind fun before _ => ?_
  have hinner : Ensures (processEventContentInnerTx env {} db c now ledger buffer)
      (fun db' => db'.ev.eventsHeads = db.ev.eventsHeads ∧ db'.ev.events = db.ev.events) (fun _ => True) := by
    unfold processEventContentInnerTx
    split
    · exact ⟨rfl, rfl⟩
    split
    · refine (ensures_true _).bind fun _ _ => ?_
      unfold materializeTx
      dsimp only
      split
      · exact ⟨rfl, rfl⟩
      split
      · refine (storeContentTx_effect _ _ _).bind fun ev hev => ?_
        obtain ⟨u, rfl⟩ := hev
        exact ⟨rfl, rfl⟩
      · refine (rejectContentTx_effect _ _).bind fun ev hev => ?_
        obtain ⟨rc, u, rfl⟩ := hev
        exact ⟨rfl, rfl⟩
      · trivial
    · unfold supplyDeletedTx
      split
      · rw [deletedLineageTx_eq]
        exact ⟨rfl, rfl⟩
      · exact ⟨rfl, rfl⟩
  refine hinner.bind fun db₁ h₁ => ?_
  exact (payloadAfterTx_unheard env db₁ before).mono
    (fun _ h => ⟨h.heads.trans h₁.1, h.headers.trans h₁.2⟩) fun _ h => h

theorem signals_refused {db : Database} {c : VerifiedEventContent} {now : Timestamp} {ledger : AdmissionState}
    {buffer : Option PayloadBuffer} {reason : PayloadAdmissionPause}
    (hawaited : canInsertEventContentTx db.ev c.event.id = true)
    (hpaused : admitMaterializationTx db c.event buffer ledger = .error (.payloadAdmissionPaused reason)) :
    contentSignals env db c now ledger buffer = [] := by
  unfold contentSignals
  rw [if_pos hawaited, hpaused]
  split
  · rfl
  · rfl

/-- The own heads change only if the watch is written. -/
def HeadsTold (env : Env) (db : Database) (hooks : List Signal) (db' : Database) : Prop :=
  (∀ s ∈ hooks, isHead s = false) →
    getHeadsEventsTx db'.ev env.selfId = getHeadsEventsTx db.ev env.selfId

omit [Primitives] in
theorem getHeadsEventsTx_congr {t t' : EventTables} {a : RostraId}
    (h : ∀ k : RostraId × ShortEventId, k.1 = a → (k ∈ t'.eventsHeads ↔ k ∈ t.eventsHeads)) :
    getHeadsEventsTx t' a = getHeadsEventsTx t a := by
  ext id
  rw [mem_getHeadsEventsTx, mem_getHeadsEventsTx]
  exact h (a, id) rfl

theorem headsTold_law (env : Env) : (signalRegistry env).Law env (HeadsTold env) where
  unheard := by
    intro db db' h _
    exact getHeadsEventsTx_congr fun k _ => by rw [h.heads]
  trans := by
    intro db db' db'' hooks hooks' h h' hnone
    exact (h' fun s hs => hnone s (List.mem_append_right _ hs)).trans
      (h fun s hs => hnone s (List.mem_append_left _ hs))
  envelope := by
    intro db v now source
    refine (processEventTx_inserts env db v now source).mono (fun r hr hnone => ?_) fun _ h => h
    obtain ⟨⟨t, outcome⟩, hins, hrest⟩ := hr
    obtain ⟨hbeside, hsame⟩ := (insertEventTx_heads db.ev v).of_ok hins
    refine getHeadsEventsTx_congr fun k hk => ?_
    rw [hrest.heads]
    cases outcome with
    | alreadyPresent => rw [hsame rfl]
    | inserted wasMissing isDeleted parent reverted missingParents =>
      -- an own event would have written the watch
      refine hbeside k fun hauthor => ?_
      have hself : v.event.author = env.selfId := hauthor.symm.trans hk
      have hhook : Signal.publish (.head (readHeadTx env.selfId t.eventsHeads)) ∈ eventSignals env db v := by
        unfold eventSignals
        rw [hins]
        simp [hself]
      have := hnone _ hhook
      cases this
  payload := by
    intro db c now ledger buffer
    refine (processEventContentTx_heads env db c now ledger buffer).mono (fun db' h _ => ?_) fun _ h => h
    exact getHeadsEventsTx_congr fun k _ => by rw [h.1]
  refused := fun _ _ _ _ _ _ hawaited hpaused => signals_refused hawaited hpaused

/-- New heads are stored, by the author that is told. -/
def HeadsStored (db : Database) (hooks : List Signal) (db' : Database) : Prop :=
  (∀ id e, db.ev.events.get id = some e → db'.ev.events.get id = some e) ∧
    ∀ author id, .newHead author id ∈ hooks →
      ∃ v : VerifiedEvent, v.id = id ∧ v.event.author = author ∧ db'.ev.events.get id = some v.event

theorem headsStored_law (env : Env) : (signalRegistry env).Law env HeadsStored where
  unheard := by
    intro db db' h
    refine ⟨fun id e he => h.headers ▸ he, fun author id hmem => ?_⟩
    cases hmem
  trans := by
    intro db db' db'' hooks hooks' h h'
    refine ⟨fun id e he => h'.1 id e (h.1 id e he), fun author id hmem => ?_⟩
    rcases List.mem_append.mp hmem with hmem | hmem
    · obtain ⟨v, hid, hauthor, hv⟩ := h.2 author id hmem
      exact ⟨v, hid, hauthor, h'.1 id _ hv⟩
    · exact h'.2 author id hmem
  envelope := by
    intro db v now source
    refine ((processEventTx_heralded env db v now source).and (processEventTx_inserts env db v now source)).mono
      (fun r hr => ⟨hr.1.headers, fun author id hmem => ?_⟩) fun _ _ => trivial
    obtain ⟨⟨t, outcome⟩, hins, hrest⟩ := hr.2
    have hmem : Signal.newHead author id ∈ eventSignals env db v := hmem
    unfold eventSignals at hmem
    rw [hins] at hmem
    cases (insertEventTx_effect db.ev v).of_ok hins with
    | present e he hreg ht ho =>
      rw [show outcome = _ from ho] at hmem
      cases hmem
    | new hnew hreg wm isD dp rev mp hin ho =>
      rw [show outcome = _ from ho] at hmem
      have hown : author = v.event.author ∧ id = v.id := by
        simp only [List.mem_append] at hmem
        rcases hmem with (hmem | hmem) | hmem
        · split at hmem
          · cases List.mem_singleton.mp hmem
            exact ⟨rfl, rfl⟩
          · cases hmem
        · split at hmem
          · cases List.mem_singleton.mp hmem
          · cases hmem
        · split at hmem
          · cases List.mem_singleton.mp hmem
          · cases hmem
      obtain ⟨rfl, rfl⟩ := hown
      refine ⟨v, rfl, rfl, ?_⟩
      have hrow : t.events = db.ev.events.insert v.id v.event := hin.events
      rw [hrest.headers]
      show t.events.get v.id = _
      rw [hrow, Table.get_insert_self]
  payload := by
    intro db c now ledger buffer
    refine (processEventContentTx_heads env db c now ledger buffer).mono (fun db' h => ?_) fun _ h => h
    refine ⟨fun id e he => h.2 ▸ he, fun author id hmem => ?_⟩
    have hmem : Signal.newHead author id ∈ contentSignals env db c now ledger buffer := hmem
    unfold contentSignals at hmem
    split at hmem
    · cases hmem
    split at hmem
    · split at hmem
      · rcases List.mem_append.mp hmem with hmem | hmem
        · obtain ⟨value, -, hvalue⟩ := List.mem_map.mp hmem
          cases hvalue
        · split at hmem
          · cases List.mem_singleton.mp hmem
          · cases hmem
      · cases hmem
    · cases hmem
  refused := fun _ _ _ _ _ _ hawaited hpaused => signals_refused hawaited hpaused

end Laws

/-! ## 2. Waiting for an own head

The watch only says that something was written. So a handler may wake up for nothing, and it then looks, finds what
it had seen before, and waits again. -/

section HeadWaits

variable [Primitives] {env : Env} {knownHead : ShortEventId} {w : HeadWait}

omit [Primitives] in
/-- There is nothing to answer. -/
def Unchanged (env : Env) (knownHead : ShortEventId) (t : EventTables) : Prop :=
  getHeadsEventsTx t env.selfId = ∅ ∨ knownHead ∈ getHeadsEventsTx t env.selfId

omit [Primitives] in
/-- **A handler that waits knows of a reason to**: as long as no write of the watch is in its way, the heads
still are as it has seen them. -/
structure Alert (env : Env) (knownHead : ShortEventId) (w : HeadWait) : Prop where
  idle : w.pc = .waiting → w.headSeen = true → (∀ s ∈ w.publisher.hooks, isHead s = false) →
    Unchanged env knownHead w.publisher.db.ev
  sound : w.pc ≠ .panicked

theorem Alert.step (h : Alert env knownHead w) {act : HeadWaitAct} {w' : HeadWait} {shown : List ShortEventId}
    (hstep : w.step env knownHead act = some (w', shown)) : Alert env knownHead w' := by
  cases act with
  | commit op =>
    obtain ⟨p, hcommit, heq⟩ := Option.map_eq_some_iff.mp hstep
    cases heq
    refine ⟨fun hpc hseen hnone => ?_, h.sound⟩
    unfold Publisher.commit at hcommit
    split at hcommit
    · next hhooks =>
      split at hcommit
      · next db hok =>
        cases hcommit
        have hold := h.idle hpc hseen (by rw [hhooks]; intro s hs; cases hs)
        have hsame := ((headsTold_law env).step w.publisher.db op).of_ok hok hnone
        unfold Unchanged
        rw [hsame]
        exact hold
      · cases hcommit
    · cases hcommit
  | hook =>
    obtain ⟨⟨s, p⟩, hpublish, heq⟩ := Option.map_eq_some_iff.mp hstep
    cases heq
    refine ⟨fun hpc hseen hnone => ?_, h.sound⟩
    obtain ⟨hold, hs⟩ := Bool.and_eq_true_iff.mp hseen
    unfold Publisher.publish at hpublish
    split at hpublish
    · cases hpublish
    · next hook hooks hhooks =>
      cases hpublish
      refine h.idle hpc hold fun s' hs' => ?_
      rw [hhooks] at hs'
      rcases List.mem_cons.mp hs' with rfl | hs'
      · simpa using hs
      · exact hnone s' hs'
  | go random =>
    unfold HeadWait.step at hstep
    dsimp only at hstep
    split at hstep
    · split at hstep
      · next hread =>
        split at hstep
        · cases hstep
          exact ⟨by rintro ⟨⟩, by rintro ⟨⟩⟩
        · next hdrawn => exact absurd (sampleHead_eq_none.mp hdrawn) hread.1
      · next hread =>
        cases hstep
        refine ⟨fun _ _ _ => ?_, by rintro ⟨⟩⟩
        by_cases hempty : getHeadsEventsTx w.publisher.db.ev env.selfId = ∅
        · exact .inl hempty
        · exact .inr (not_not.mp fun hknown => hread ⟨hempty, hknown⟩)
    · cases hstep
  | changed =>
    unfold HeadWait.step at hstep
    dsimp only at hstep
    split at hstep
    · split at hstep
      · cases hstep
      · cases hstep
        exact ⟨by rintro ⟨⟩, by rintro ⟨⟩⟩
    · cases hstep
  | leave =>
    unfold HeadWait.step at hstep
    dsimp only at hstep
    split at hstep
    · cases hstep
      exact ⟨by rintro ⟨⟩, by rintro ⟨⟩⟩
    · cases hstep
      exact ⟨by rintro ⟨⟩, by rintro ⟨⟩⟩
    · cases hstep
    · cases hstep
    · cases hstep

theorem headWaited_alert (env : Env) (knownHead : ShortEventId) (p : Publisher) (acts : List HeadWaitAct) :
    Alert env knownHead (headWaited env knownHead p acts).1 :=
  Machine.run_invariant (J := fun w _ => Alert env knownHead w) ⟨by rintro ⟨⟩, by rintro ⟨⟩⟩ acts
    fun _ _ _ _ _ _ h hstep => h.step hstep

/-- A handler that reads answers if it can. -/
theorem HeadWait.step_reading (hpc : w.pc = .reading)
    (hempty : getHeadsEventsTx w.publisher.db.ev env.selfId ≠ ∅)
    (hknown : knownHead ∉ getHeadsEventsTx w.publisher.db.ev env.selfId) (random : ℕ) :
    ∃ head, w.step env knownHead (.go random) = some ({ w with pc := .answered head }, [head]) := by
  unfold HeadWait.step
  rw [hpc]
  dsimp only
  rw [if_pos ⟨hempty, hknown⟩]
  cases hdrawn : sampleHead (getHeadsEventsTx w.publisher.db.ev env.selfId) random with
  | none => exact absurd (sampleHead_eq_none.mp hdrawn) hempty
  | some head => exact ⟨head, rfl⟩

/-- An answer is one of the heads that were read. -/
theorem HeadWait.step_answered {act : HeadWaitAct} {w' : HeadWait} {shown : List ShortEventId} {head : ShortEventId}
    (hstep : w.step env knownHead act = some (w', shown)) (hpc' : w'.pc = .answered head) :
    w.pc = .answered head ∨ ∃ random, act = .go random ∧
      head ∈ getHeadsEventsTx w.publisher.db.ev env.selfId ∧
        knownHead ∉ getHeadsEventsTx w.publisher.db.ev env.selfId := by
  cases act with
  | commit op =>
    obtain ⟨p, -, heq⟩ := Option.map_eq_some_iff.mp hstep
    cases heq
    exact .inl hpc'
  | hook =>
    obtain ⟨r, -, heq⟩ := Option.map_eq_some_iff.mp hstep
    cases heq
    exact .inl hpc'
  | go random =>
    unfold HeadWait.step at hstep
    dsimp only at hstep
    split at hstep
    · split at hstep
      · next hread =>
        split at hstep
        · next drawn hdrawn =>
          cases hstep
          cases hpc'
          exact .inr ⟨random, rfl, sampleHead_mem hdrawn, hread.2⟩
        · cases hstep
          cases hpc'
      · cases hstep
        cases hpc'
    · cases hstep
  | changed =>
    unfold HeadWait.step at hstep
    dsimp only at hstep
    split at hstep
    · split at hstep
      · cases hstep
      · cases hstep
        cases hpc'
    · cases hstep
  | leave =>
    unfold HeadWait.step at hstep
    dsimp only at hstep
    split at hstep
    · cases hstep
      cases hpc'
    · cases hstep
      cases hpc'
    · cases hstep
    · cases hstep
    · cases hstep

theorem headWaited_snoc (env : Env) (knownHead : ShortEventId) (p : Publisher) (acts : List HeadWaitAct)
    (act : HeadWaitAct) : headWaited env knownHead p (acts ++ [act]) =
      Machine.advance (HeadWait.step env knownHead) (headWaited env knownHead p acts) act := Machine.run_snoc ..

theorem headWaited_answered (env : Env) (knownHead : ShortEventId) (p : Publisher) (acts : List HeadWaitAct)
    {head : ShortEventId} (hpc : (headWaited env knownHead p acts).1.pc = .answered head) :
    ∃ before random after, acts = before ++ .go random :: after ∧
      head ∈ getHeadsEventsTx (headWaited env knownHead p before).1.publisher.db.ev env.selfId ∧
      knownHead ∉ getHeadsEventsTx (headWaited env knownHead p before).1.publisher.db.ev env.selfId := by
  induction acts using List.reverseRecOn with
  | nil => cases hpc
  | append_singleton acts act ih =>
    rw [headWaited_snoc] at hpc
    have hold : (headWaited env knownHead p acts).1.pc = .answered head →
        ∃ before random after, acts ++ [act] = before ++ .go random :: after ∧
          head ∈ getHeadsEventsTx (headWaited env knownHead p before).1.publisher.db.ev env.selfId ∧
          knownHead ∉ getHeadsEventsTx (headWaited env knownHead p before).1.publisher.db.ev env.selfId := by
      intro hpc
      obtain ⟨before, random, after, rfl, hread⟩ := ih hpc
      exact ⟨before, random, after ++ [act], by simp, hread⟩
    unfold Machine.advance at hpc
    cases hstep : (headWaited env knownHead p acts).1.step env knownHead act with
    | none =>
      rw [hstep] at hpc
      exact hold hpc
    | some r =>
      rw [hstep] at hpc
      rcases HeadWait.step_answered hstep hpc with hpc | ⟨random, rfl, hread⟩
      · exact hold hpc
      · exact ⟨acts, random, [], rfl, hread⟩

/-- **A long poll for a head is not lost.**  Whatever the state in which the handler subscribes, and however
commits, hooks and its own steps take turns: once the hooks have run and there is something to answer, the watch
lets the handler go on and it answers.  What it answers was a head, and the caller's was not, when it read them;
and it never panics. -/
theorem waitHeadUpdate_wakes (env : Env) (knownHead : ShortEventId) (p : Publisher) (acts : List HeadWaitAct) :
    ((headWaited env knownHead p acts).1.publisher.hooks = [] →
      getHeadsEventsTx (headWaited env knownHead p acts).1.publisher.db.ev env.selfId ≠ ∅ →
      knownHead ∉ getHeadsEventsTx (headWaited env knownHead p acts).1.publisher.db.ev env.selfId →
      (headWaited env knownHead p acts).1.pc ≠ .stopped →
      ∀ random, ∃ head, (headWaited env knownHead p (acts ++ [.changed, .go random])).1.pc = .answered head) ∧
    (∀ head, (headWaited env knownHead p acts).1.pc = .answered head →
      ∃ before random after, acts = before ++ .go random :: after ∧
        head ∈ getHeadsEventsTx (headWaited env knownHead p before).1.publisher.db.ev env.selfId ∧
        knownHead ∉ getHeadsEventsTx (headWaited env knownHead p before).1.publisher.db.ev env.selfId) ∧
    (headWaited env knownHead p acts).1.pc ≠ .panicked := by
  have halert := headWaited_alert env knownHead p acts
  refine ⟨fun hhooks hempty hknown hrunning random => ?_, fun head => headWaited_answered env knownHead p acts,
    halert.sound⟩
  have hsplit : acts ++ [.changed, .go random] = (acts ++ [.changed]) ++ [.go random] := by simp
  rw [hsplit, headWaited_snoc, headWaited_snoc]
  generalize headWaited env knownHead p acts = c at *
  -- the handler reads, or the watch brings it there
  have hgo : ∀ c' : HeadWait × List ShortEventId, c'.1.publisher = c.1.publisher → c'.1.pc = .reading →
      ∃ head, (Machine.advance (HeadWait.step env knownHead) c' (.go random)).1.pc = .answered head := by
    intro c' hp hpc
    obtain ⟨head, hstep⟩ := HeadWait.step_reading hpc (by rw [hp]; exact hempty) (by rw [hp]; exact hknown) random
    refine ⟨head, ?_⟩
    unfold Machine.advance
    rw [hstep]
  cases hpc : c.1.pc with
  | reading =>
    have hskip : Machine.advance (HeadWait.step env knownHead) c .changed = c := by
      unfold Machine.advance HeadWait.step
      rw [hpc]
    rw [hskip]
    exact hgo c rfl hpc
  | waiting =>
    have hunseen : c.1.headSeen = false := by
      by_contra hseen
      rcases halert.idle hpc (Bool.eq_true_of_not_eq_false hseen) (by rw [hhooks]; intro s hs; cases hs) with h | h
      · exact hempty h
      · exact hknown h
    refine hgo (Machine.advance (HeadWait.step env knownHead) c .changed) ?_ ?_
    · unfold Machine.advance HeadWait.step
      rw [hpc]
      simp [hunseen]
    · unfold Machine.advance HeadWait.step
      rw [hpc]
      simp [hunseen]
  | answered head =>
    refine ⟨head, ?_⟩
    have hskip : ∀ act, act = .changed ∨ act = .go random →
        Machine.advance (HeadWait.step env knownHead) c act = c := by
      rintro act (rfl | rfl)
      · unfold Machine.advance HeadWait.step
        rw [hpc]
      · unfold Machine.advance HeadWait.step
        rw [hpc]
    rw [hskip _ (.inl rfl), hskip _ (.inr rfl), hpc]
  | panicked => exact absurd hpc halert.sound
  | stopped => exact absurd hpc hrunning

end HeadWaits

/-! ## 3. Waiting for a follower

The broadcast carries the author and the event, and between the hook and the answer they pass through the channel,
a filter for the followers, and a read of the stored header. -/

section FollowersWaits

variable [Primitives] {env : Env} {w : FollowersWait} {trace : List (RostraId × Finset RostraId)}

/-- An event of the author is stored under its own id. -/
def StoredAs (db : Database) (author : RostraId) (id : ShortEventId) : Prop :=
  ∃ v : VerifiedEvent, v.id = id ∧ v.event.author = author ∧ db.ev.events.get id = some v.event

omit [Primitives] in
/-- A snapshot of the followers had the author. -/
def Followed (trace : List (RostraId × Finset RostraId)) (author : RostraId) : Prop :=
  ∃ followers, (author, followers) ∈ trace ∧ author ∈ followers

omit [Primitives] in
theorem Followed.append {author : RostraId} (h : Followed trace author) (shown : List (RostraId × Finset RostraId)) :
    Followed (trace ++ shown) author := by
  obtain ⟨followers, hmem, hauthor⟩ := h
  exact ⟨followers, List.mem_append_left _ hmem, hauthor⟩

/-- What a handler has in its hands. -/
def Held (db : Database) (trace : List (RostraId × Finset RostraId)) : FollowersWaitPc → Prop
  | .subscribing | .waiting | .stopped => True
  | .received author head => StoredAs db author head
  | .relevant author head => StoredAs db author head ∧ Followed trace author
  | .answered author event =>
    (event.author = author ∧ db.ev.events.get (VerifiedEvent.ofEvent event).id = some event) ∧ Followed trace author

/-- **What is told is stored**, from the hook of a commit to the answer. At each place on the way the author and
the event belong to a stored header. -/
structure Truthful (w : FollowersWait) (trace : List (RostraId × Finset RostraId)) : Prop where
  hooks : ∀ author id, .newHead author id ∈ w.publisher.hooks → StoredAs w.publisher.db author id
  unread : ∀ author id, (author, id) ∈ w.newHeads.unread → StoredAs w.publisher.db author id
  held : Held w.publisher.db trace w.pc

theorem StoredAs.keep {db db' : Database} {author : RostraId} {id : ShortEventId} (h : StoredAs db author id)
    (hkeep : ∀ id e, db.ev.events.get id = some e → db'.ev.events.get id = some e) : StoredAs db' author id := by
  obtain ⟨v, hid, hauthor, hv⟩ := h
  exact ⟨v, hid, hauthor, hkeep _ _ hv⟩

theorem Held.keep {db db' : Database} {pc : FollowersWaitPc} (h : Held db trace pc)
    (hkeep : ∀ id e, db.ev.events.get id = some e → db'.ev.events.get id = some e) : Held db' trace pc := by
  cases pc with
  | subscribing => trivial
  | waiting => trivial
  | received author head => exact StoredAs.keep h hkeep
  | relevant author head => exact ⟨h.1.keep hkeep, h.2⟩
  | answered author event => exact ⟨⟨h.1.1, hkeep _ _ h.1.2⟩, h.2⟩
  | stopped => trivial

omit [Primitives] in
/-- A value that is sent joins what is unread; one that is not loses at most the oldest. -/
theorem mem_send {T : Type} {places : ℕ} {r : Broadcast.Receiver T} {v x : T} (h : x ∈ (r.send places v).unread) :
    x ∈ r.unread ∨ x = v := by
  unfold Broadcast.Receiver.send at h
  split at h
  · exact (List.mem_append.mp h).imp_right List.mem_singleton.mp
  · exact (List.mem_append.mp h).imp List.mem_of_mem_tail List.mem_singleton.mp

theorem Truthful.hook (h : Truthful w trace) {s : Signal} {p : Publisher}
    (hpublish : w.publisher.publish = some (s, p)) : Truthful (w.hear s p) trace := by
  unfold Publisher.publish at hpublish
  split at hpublish
  · cases hpublish
  next hook hooks hhooks =>
  cases hpublish
  have hrest : ∀ author id, Signal.newHead author id ∈ hooks → StoredAs w.publisher.db author id :=
    fun author id hmem => h.hooks author id (by rw [hhooks]; exact List.mem_cons_of_mem _ hmem)
  cases s with
  | newHead author id =>
    refine ⟨hrest, fun a i hmem => ?_, h.held⟩
    rcases mem_send hmem with hmem | heq
    · exact h.unread a i hmem
    · cases heq
      exact h.hooks author id (by rw [hhooks]; exact List.mem_cons_self ..)
  | _ => exact ⟨hrest, h.unread, h.held⟩

theorem Truthful.go (h : Truthful w trace) {w' : FollowersWait} {shown : List (RostraId × Finset RostraId)}
    (hgo : w.go = some (w', shown)) : Truthful w' (trace ++ shown) := by
  unfold FollowersWait.go at hgo
  split at hgo
  · cases hgo
    exact ⟨h.hooks, fun _ _ hmem => absurd hmem List.not_mem_nil, trivial⟩
  · next hpc =>
    obtain ⟨⟨result, r⟩, hrecv, heq⟩ := Option.map_eq_some_iff.mp hgo
    unfold Broadcast.Receiver.recv at hrecv
    split at hrecv
    · -- what was lost is not heard of again
      cases hrecv
      cases heq
      exact ⟨h.hooks, h.unread, by rw [hpc]; trivial⟩
    split at hrecv
    · cases hrecv
    next value unread hunread =>
    cases hrecv
    cases heq
    exact ⟨h.hooks, fun author id hmem => h.unread author id (by rw [hunread]; exact List.mem_cons_of_mem _ hmem),
      h.unread _ _ (by rw [hunread]; exact List.mem_cons_self ..)⟩
  · next author head hpc =>
    have hheld : StoredAs w.publisher.db author head := by
      have := h.held
      rw [hpc] at this
      exact this
    dsimp only at hgo
    split at hgo
    · next hfollower =>
      cases hgo
      exact ⟨h.hooks, h.unread, hheld, _, List.mem_append_right _ (List.mem_singleton_self _), hfollower⟩
    · cases hgo
      exact ⟨h.hooks, h.unread, trivial⟩
  · next author head hpc =>
    have hheld : StoredAs w.publisher.db author head ∧ Followed trace author := by
      have := h.held
      rw [hpc] at this
      exact this
    split at hgo
    · cases hgo
      exact ⟨h.hooks, h.unread, trivial⟩
    · next event hget =>
      cases hgo
      obtain ⟨⟨v, hid, hauthor, hv⟩, hfollowed⟩ := hheld
      rw [hget] at hv
      cases hv
      refine ⟨h.hooks, h.unread, ⟨hauthor, ?_⟩, hfollowed.append []⟩
      rw [VerifiedEvent.ofEvent_self, hid]
      exact hget
  · cases hgo
  · cases hgo

theorem Truthful.step (h : Truthful w trace) {act : FollowersWaitAct} {w' : FollowersWait}
    {shown : List (RostraId × Finset RostraId)} (hstep : w.step env act = some (w', shown)) :
    Truthful w' (trace ++ shown) := by
  cases act with
  | commit op =>
    obtain ⟨p, hcommit, heq⟩ := Option.map_eq_some_iff.mp hstep
    cases heq
    rw [List.append_nil]
    unfold Publisher.commit at hcommit
    split at hcommit
    · split at hcommit
      · next db hok =>
        cases hcommit
        have hstored := ((headsStored_law env).step w.publisher.db op).of_ok hok
        exact ⟨hstored.2, fun author id hmem => (h.unread author id hmem).keep hstored.1, h.held.keep hstored.1⟩
      · cases hcommit
    · cases hcommit
  | hook =>
    obtain ⟨⟨s, p⟩, hpublish, heq⟩ := Option.map_eq_some_iff.mp hstep
    cases heq
    rw [List.append_nil]
    exact h.hook hpublish
  | go => exact h.go hstep
  | leave =>
    unfold FollowersWait.step at hstep
    dsimp only at hstep
    split at hstep
    · cases hstep
      exact ⟨h.hooks, h.unread, trivial⟩
    · cases hstep
      exact ⟨h.hooks, h.unread, trivial⟩
    · cases hstep
      exact ⟨h.hooks, h.unread, trivial⟩
    · cases hstep
      exact ⟨h.hooks, h.unread, trivial⟩
    · cases hstep
    · cases hstep

theorem followersWaited_truthful (env : Env) (db : Database) (acts : List FollowersWaitAct) :
    Truthful (followersWaited env db acts).1 (followersWaited env db acts).2 := by
  have hstart : Truthful { publisher := .open env db } [] :=
    ⟨fun _ _ hmem => absurd hmem List.not_mem_nil, fun _ _ hmem => absurd hmem List.not_mem_nil, trivial⟩
  exact Machine.run_invariant (J := Truthful) hstart acts fun _ _ _ _ _ _ h hstep => h.step hstep

/-- **The answer to a long poll for followers stands up to the caller.**  However commits, hooks and the handler
take turns, and whatever was lost: the event that is answered is by the author that is answered beside it, is
stored, and its author was a follower when the handler looked.  If the stored signature is good, then a client that
polls finds nothing to reject, and delivers exactly what its own web of trust has. -/
theorem waitFollowers_binds [Transport] (env : Env) (db : Database) (acts : List FollowersWaitAct)
    {author : RostraId} {event : Event} (hpc : (followersWaited env db acts).1.pc = .answered author event) :
    (event.author = author ∧
      (followersWaited env db acts).1.publisher.db.ev.events.get (VerifiedEvent.ofEvent event).id = some event) ∧
    (∃ followers, (author, followers) ∈ (followersWaited env db acts).2 ∧ author ∈ followers) ∧
    ∀ (caller : RostraId) (wot : WotData) (claimed : FixedRostraId) (signed : Bincode.SignedEvent),
      claimed.1 = author → signed.1.1 = event → Transport.verifySignature event signed.2 = true →
      pollOnce caller wot (success .WAIT_FOLLOWERS_NEW_HEADS (claimed, signed)) =
        .ok (if wot.contains author caller then some (.ofEvent event) else none) := by
  have hheld := (followersWaited_truthful env db acts).held
  rw [hpc] at hheld
  obtain ⟨⟨hauthor, hstored⟩, hfollowed⟩ := hheld
  refine ⟨⟨hauthor, hstored⟩, hfollowed, fun caller wot claimed signed hclaimed hevent hsignature => ?_⟩
  unfold pollOnce
  rw [makeRpc_written]
  have hverified : verifySigned claimed.1 signed = .ok (.ofEvent event) := by
    unfold verifySigned verifyResponse
    simp [hclaimed, hevent, hauthor, hsignature]
  dsimp only
  rw [hverified]
  simp [hauthor]

end FollowersWaits

section Sample

attribute [local instance] Primitives.reference Transport.reference

/-- A call waits for the first event of the account; then it arrives. -/
def sampleHeadWait : List HeadWaitAct :=
  [.go 0, .commit (.ingest [.envelope (.ofEvent samplePost) 5 (.pushed none none)]), .hook, .hook, .hook]

/-- The call is answered with the event that arrives while it waits. -/
theorem waitHeadUpdate_wakes_sampleHeadWait (random : ℕ) :
    ∃ head, (headWaited broadcastEnv 7 (.open broadcastEnv {})
      (sampleHeadWait ++ [.changed, .go random])).1.pc = .answered head :=
  (waitHeadUpdate_wakes broadcastEnv 7 (.open broadcastEnv {}) sampleHeadWait).1 (by decide +kernel)
    (by decide +kernel) (by decide +kernel) (by decide +kernel) random

/-- The author of the post is a follower. -/
def sampleFollowed : Database := { proj := { idsFollowers := {(sampleEnv.selfId, toLex (1, 1))} } }

def sampleFollowersWait : List FollowersWaitAct :=
  [.go, .commit (.ingest [.envelope (.ofEvent samplePost) 5 (.pushed none none)]), .hook, .hook, .hook, .go, .go, .go]

/-- The answer names the follower, and the caller accepts it. -/
theorem waitFollowers_binds_sampleFollowersWait :
    samplePost.author = toLex (1, 1) ∧
      ∀ (signed : Bincode.SignedEvent), signed.1.1 = samplePost →
        Transport.verifySignature samplePost signed.2 = true →
        pollOnce (toLex (3, 3)) ⟨∅, {toLex (1, 1)}⟩
            (success .WAIT_FOLLOWERS_NEW_HEADS (⟨toLex (1, 1), by decide⟩, signed)) =
          .ok (some (.ofEvent samplePost)) := by
  have hpc : (followersWaited sampleEnv sampleFollowed sampleFollowersWait).1.pc =
      .answered (toLex (1, 1)) samplePost := by decide +kernel
  have h := waitFollowers_binds sampleEnv sampleFollowed sampleFollowersWait hpc
  refine ⟨h.1.1, fun signed hevent hsignature => ?_⟩
  exact h.2.2 (toLex (3, 3)) ⟨∅, {toLex (1, 1)}⟩ ⟨toLex (1, 1), by decide⟩ signed rfl hevent hsignature

end Sample

end Rostra.LongPolls
