/-
# The deduplicating channel loses nothing

Every clone of a receiver, every sender and every cancelled `recv` may move at any time.  What keeps
the channel together is small: whatever a receiver could wait for is put there by a step that bumps the
version first and holds the mutex until it is there.

* Section 1: the invariant of one channel (`Channel.Sound`), kept by every step.
* Section 2: the history of a channel is orderly (`Lib.Backlog`), and what it leaves outstanding is the
  queue.
* Section 3: a channel in the system takes steps of its own only, so all of this holds in every
  interleaving; the two panics of the map are out of reach as well.

The invariants are about one state, the claim is about a history, and the two meet in `Channel.Lossless`. It
carries the history up to the state, so that a step has to be looked at once only. Nothing is said about fairness:
a receiver that is never scheduled receives nothing, but then it is not asleep either.
-/
import Rostra.Util.DedupChan
import Rostra.Lib.Backlog

namespace Rostra.DedupChan

open Rostra Backlog

variable {T : Type} [DecidableEq T]

/-! ## 1. One channel

A send takes several steps: it bumps the version, puts the value into the queue, and lets go of the mutex. A `recv`
notes the version and looks at the queue under the mutex after that. So a value that comes in between is found in
the queue, and one that comes later changes the version. -/

/-- There is something to be fetched, or there will be before the mutex is free. -/
def Channel.Busy (c : Channel T) : Prop :=
  c.inner.queue ≠ [] ∨ c.inner.lagged = true ∨ c.sending ≠ none

/-- **The invariant of a channel.** Queue and set agree within the capacity, and a receiver that waits with the
current version has nothing to wait for. -/
structure Channel.Sound (c : Channel T) : Prop where
  set : c.inner.queue.toFinset = c.inner.set
  nodup : c.inner.queue.Nodup
  bounded : c.inner.queue.length ≤ c.capacity
  fresh : ∀ v, c.sending = some v → v ∉ c.inner.set
  seen : ∀ rcv ∈ c.receivers, rcv.seen ≤ c.version
  /-- Whoever waits while there is something to be fetched has not seen the current version. -/
  awake : ∀ rcv ∈ c.receivers, rcv.phase = .waiting → c.Busy → rcv.seen < c.version

theorem Channel.sound_subscribed (capacity : ℕ) : (Channel.subscribed capacity : Channel T).Sound where
  set := rfl
  nodup := List.nodup_nil
  bounded := Nat.zero_le _
  fresh := fun v h => by cases h
  seen := fun rcv h => by
    simp only [subscribed, List.mem_singleton] at h
    rw [h]
    exact Nat.le_refl 0
  awake := fun rcv h hw => by
    simp only [subscribed, List.mem_singleton] at h
    rw [h] at hw
    cases hw

/-- A receiver that does not start to wait. -/
theorem Channel.Sound.move {c : Channel T} (h : c.Sound) (r : ℕ) {rcv : Receiver}
    (hseen : rcv.seen ≤ c.version) (hphase : rcv.phase ≠ .waiting) : (c.move r rcv).Sound where
  set := h.set
  nodup := h.nodup
  bounded := h.bounded
  fresh := h.fresh
  seen := fun rcv' hmem => by
    rcases List.mem_or_eq_of_mem_set hmem with hold | rfl
    · exact h.seen rcv' hold
    · exact hseen
  awake := fun rcv' hmem hw hb => by
    rcases List.mem_or_eq_of_mem_set hmem with hold | rfl
    · exact h.awake rcv' hold hw hb
    · exact absurd hw hphase

/-- A send that returns at once changes nothing; one that goes on has bumped the version. -/
theorem Channel.Sound.sendStart {c : Channel T} (h : c.Sound) (v : T) : (c.sendStart v).1.Sound := by
  unfold Channel.sendStart
  split
  · split
    · exact h
    · exact h
  · next hv =>
    split
    · exact h
    · exact {
        set := h.set
        nodup := h.nodup
        bounded := h.bounded
        fresh := fun w hw => by cases hw; exact hv
        seen := fun rcv hmem => Nat.le_succ_of_le (h.seen rcv hmem)
        awake := fun rcv hmem _ _ => Nat.lt_succ_of_le (h.seen rcv hmem) }

theorem Channel.Sound.sendFinish {c : Channel T} (h : c.Sound) {v : T} (hv : c.sending = some v) :
    (c.sendFinish v).1.Sound := by
  have hnew : v ∉ c.inner.set := h.fresh v hv
  -- nobody who waits has seen the version, because this send bumped it
  have hawake : ∀ rcv ∈ c.receivers, rcv.phase = .waiting → rcv.seen < c.version :=
    fun rcv hmem hw => h.awake rcv hmem hw (.inr (.inr (by simp [hv])))
  unfold Channel.sendFinish
  split
  · exact {
      set := h.set
      nodup := h.nodup
      bounded := h.bounded
      fresh := fun w hw => by cases hw
      seen := h.seen
      awake := fun rcv hmem hw _ => hawake rcv hmem hw }
  · next hroom =>
    exact {
      set := by
        simp only [List.toFinset_append, h.set, List.toFinset_cons, List.toFinset_nil,
          insert_empty_eq]
        rw [Finset.union_comm]
        rfl
      nodup := by
        have hmem : v ∉ c.inner.queue := by rwa [← h.set, List.mem_toFinset] at hnew
        exact (List.concat_eq_append ▸ h.nodup.concat hmem)
      bounded := by
        simp only [List.length_append, List.length_singleton]
        omega
      fresh := fun w hw => by cases hw
      seen := h.seen
      awake := fun rcv hmem hw _ => hawake rcv hmem hw }

/-- What a look finds. -/
theorem Channel.Sound.look_cases {c : Channel T} (h : c.Sound) (r : ℕ) :
    (c.inner.queue = [] ∧ c.inner.lagged = true ∧
      c.inner.look r = ({ c.inner with lagged := false }, .idle, [.received r (.error .lagging)])) ∨
    (c.inner.queue = [] ∧ c.inner.lagged = false ∧ c.inner.look r = (c.inner, .waiting, [.slept r])) ∨
    ∃ v rest, c.inner.queue = v :: rest ∧ c.inner.look r =
      ({ c.inner with queue := rest, set := c.inner.set.erase v }, .idle, [.received r (.ok v)]) := by
  unfold ChannelInner.look
  cases hq : c.inner.queue with
  | nil =>
    cases hl : c.inner.lagged with
    | true => exact .inl ⟨rfl, rfl, by simp [hq]⟩
    | false => exact .inr (.inl ⟨rfl, rfl, rfl⟩)
  | cons v rest =>
    have hv : v ∈ c.inner.set := by
      rw [← h.set, hq]
      simp
    exact .inr (.inr ⟨v, rest, rfl, by simp only [if_pos hv]⟩)

/-- The state after a look. -/
def Channel.looked (c : Channel T) (r : ℕ) (rcv : Receiver) : Channel T :=
  { c.move r { rcv with phase := (c.inner.look r).2.1 } with inner := (c.inner.look r).1 }

theorem Channel.Sound.looked {c : Channel T} (h : c.Sound) {r : ℕ} {rcv : Receiver}
    (hr : rcv ∈ c.receivers) (hfree : c.sending = none) : (c.looked r rcv).Sound := by
  have hseen := h.seen rcv hr
  rcases h.look_cases r with ⟨hq, hl, hlook⟩ | ⟨hq, hl, hlook⟩ | ⟨v, rest, hq, hlook⟩
  · have hmoved : (c.move r { rcv with phase := .idle }).Sound := h.move r hseen (by simp)
    unfold Channel.looked
    rw [hlook]
    exact {
      set := h.set
      nodup := h.nodup
      bounded := h.bounded
      fresh := h.fresh
      seen := hmoved.seen
      awake := fun rcv' hmem hw hb => hmoved.awake rcv' hmem hw (by
        rcases hb with hb | hb | hb
        · exact .inl hb
        · cases hb
        · exact .inr (.inr hb)) }
  · -- the only step on which a receiver starts to wait, with nothing there
    have hidle : ¬c.Busy := by
      rintro (hb | hb | hb)
      · exact hb hq
      · rw [hl] at hb
        cases hb
      · exact hb hfree
    unfold Channel.looked
    rw [hlook]
    exact {
      set := h.set
      nodup := h.nodup
      bounded := h.bounded
      fresh := h.fresh
      seen := fun rcv' hmem => by
        rcases List.mem_or_eq_of_mem_set hmem with hold | rfl
        · exact h.seen rcv' hold
        · exact hseen
      awake := fun rcv' hmem hw hb => absurd hb hidle }
  · have hmoved : (c.move r { rcv with phase := .idle }).Sound := h.move r hseen (by simp)
    have hnodup : (v :: rest).Nodup := hq ▸ h.nodup
    have hbounded : (v :: rest).length ≤ c.capacity := hq ▸ h.bounded
    have hbusy : c.Busy := .inl (by simp [hq])
    unfold Channel.looked
    rw [hlook]
    exact {
      set := by
        show rest.toFinset = c.inner.set.erase v
        rw [← h.set, hq, List.toFinset_cons, Finset.erase_insert]
        simpa using (List.nodup_cons.mp hnodup).1
      nodup := (List.nodup_cons.mp hnodup).2
      bounded := Nat.le_of_succ_le hbounded
      fresh := fun w hw => by
        rw [show c.sending = some w from hw] at hfree
        cases hfree
      seen := hmoved.seen
      awake := fun rcv' hmem hw _ => hmoved.awake rcv' hmem hw hbusy }

/-! ## 2. The history of a channel

What happened to a channel is a list of sends, lags and deliveries, in the order in which they took effect. The
library says what such a list leaves outstanding; here it is shown that this is what the queue holds, step by step. -/

/-- What a channel shows, as the backlog sees it. -/
def Shown.happening : Shown T → Option (Happening T)
  | .sent v (.ok _) => some (.sent v)
  | .sent v (.error .lagging) => some (.dropped v)
  | .received _ (.ok v) => some (.taken v)
  | .received _ (.error .lagging) => some .warned
  | .slept _ => some .slept
  | _ => none

def history (shown : List (Shown T)) : List (Happening T) := shown.filterMap Shown.happening

omit [DecidableEq T] in
theorem history_append (a b : List (Shown T)) : history (a ++ b) = history a ++ history b := by
  simp [history]

/-- **The queue is what the history leaves outstanding**, and the lag flag is the warning that it owes. -/
structure Channel.Lossless (c : Channel T) (trace : List (Shown T)) : Prop where
  sound : c.Sound
  orderly : Orderly (history trace)
  outstanding : outstanding (history trace) = c.inner.queue
  owing : owing (history trace) = c.inner.lagged
  unharmed : Shown.panicked ∉ trace

theorem Channel.lossless_subscribed (capacity : ℕ) :
    (Channel.subscribed capacity : Channel T).Lossless [] where
  sound := sound_subscribed capacity
  orderly := orderly_nil
  outstanding := rfl
  owing := rfl
  unharmed := by simp

/-- A step that shows nothing and leaves the contents alone. -/
theorem Channel.Lossless.quiet {c c' : Channel T} {trace : List (Shown T)} (h : c.Lossless trace)
    (hsound : c'.Sound) (hinner : c'.inner = c.inner) : c'.Lossless (trace ++ []) := by
  rw [List.append_nil]
  exact ⟨hsound, h.orderly, hinner ▸ h.outstanding, hinner ▸ h.owing, h.unharmed⟩

/-- A step that shows a result that the backlog does not see. -/
theorem Channel.Lossless.unseen {c c' : Channel T} {trace : List (Shown T)} (h : c.Lossless trace)
    {e : Shown T} (he : e.happening = none) (hp : e ≠ .panicked) (hsound : c'.Sound)
    (hinner : c'.inner = c.inner) : c'.Lossless (trace ++ [e]) := by
  have hhist : history (trace ++ [e]) = history trace := by
    rw [history_append]
    simp [history, he]
  refine ⟨hsound, ?_, ?_, ?_, ?_⟩
  · rw [hhist]
    exact h.orderly
  · rw [hhist, hinner]
    exact h.outstanding
  · rw [hhist, hinner]
    exact h.owing
  · intro hmem
    rcases List.mem_append.mp hmem with hmem | hmem
    · exact h.unharmed hmem
    · exact hp (List.mem_singleton.mp hmem).symm

/-- A step that shows something that the backlog sees. -/
theorem Channel.Lossless.happen {c c' : Channel T} {trace : List (Shown T)} (h : c.Lossless trace)
    {e : Shown T} {x : Happening T} (he : e.happening = some x)
    (hallowed : Allowed c.inner.queue c.inner.lagged x) (hsound : c'.Sound)
    (hqueue : hold c.inner.queue x = c'.inner.queue) (hlag : owe c.inner.lagged x = c'.inner.lagged) :
    c'.Lossless (trace ++ [e]) := by
  have hhist : history (trace ++ [e]) = history trace ++ [x] := by
    rw [history_append]
    simp [history, he]
  refine ⟨hsound, ?_, ?_, ?_, ?_⟩
  · rw [hhist]
    exact h.orderly.snoc (by rw [h.outstanding, h.owing]; exact hallowed)
  · rw [hhist, outstanding_snoc, h.outstanding, hqueue]
  · rw [hhist, owing_snoc, h.owing, hlag]
  · intro hmem
    rcases List.mem_append.mp hmem with hmem | hmem
    · exact h.unharmed hmem
    · rw [← List.mem_singleton.mp hmem] at he
      cases he

theorem Channel.Lossless.looked {c : Channel T} {trace : List (Shown T)} (h : c.Lossless trace) {r : ℕ}
    {rcv : Receiver} (hr : rcv ∈ c.receivers) (hfree : c.sending = none) :
    (c.looked r rcv).Lossless (trace ++ (c.inner.look r).2.2) := by
  have hsound := h.sound.looked hr hfree (r := r)
  have hinner : (c.looked r rcv).inner = (c.inner.look r).1 := rfl
  rcases h.sound.look_cases r with ⟨hq, hl, hlook⟩ | ⟨hq, hl, hlook⟩ | ⟨v, rest, hq, hlook⟩
  · rw [hlook] at hinner ⊢
    exact h.happen rfl ⟨hq, hl⟩ hsound (by rw [hinner]; rfl) (by rw [hinner]; rfl)
  · rw [hlook] at hinner ⊢
    exact h.happen rfl ⟨hq, hl⟩ hsound (by rw [hinner]; rfl) (by rw [hinner]; rfl)
  · rw [hlook] at hinner ⊢
    have hhead : c.inner.queue.head? = some v := by rw [hq]; rfl
    refine h.happen rfl hhead hsound ?_ (by rw [hinner]; rfl)
    rw [hinner, hq]
    exact List.erase_cons_head v rest

/-- **Every step keeps the channel lossless.** A step shows at most one thing that the backlog sees. -/
theorem Channel.Lossless.step {c c' : Channel T} {trace shown : List (Shown T)} {a : ChannelAct T}
    (h : c.Lossless trace) (hstep : c.step a = some (c', shown)) : c'.Lossless (trace ++ shown) := by
  cases a with
  | sendStart v =>
    simp only [Channel.step, Option.ite_none_right_eq_some, Option.some.injEq] at hstep
    obtain ⟨-, hstep⟩ := hstep
    have hsound := h.sound.sendStart v
    unfold Channel.sendStart at hstep hsound
    split at hstep
    · next hv =>
      split at hstep
      · cases hstep
        exact h.unseen rfl (by simp) h.sound rfl
      · cases hstep
        have hmem : v ∈ c.inner.queue := by rwa [← h.sound.set, List.mem_toFinset] at hv
        exact h.happen rfl trivial h.sound (if_pos hmem) rfl
    · next hv =>
      split at hstep
      · cases hstep
        exact h.unseen rfl (by simp) h.sound rfl
      · next hopen =>
        cases hstep
        rw [if_neg hv, if_neg hopen] at hsound
        exact h.quiet hsound rfl
  | sendFinish =>
    simp only [Channel.step, Option.map_eq_some_iff] at hstep
    obtain ⟨v, hv, hstep⟩ := hstep
    have hsound := h.sound.sendFinish hv
    have hnew : v ∉ c.inner.queue := by
      have hset := h.sound.fresh v hv
      rwa [← h.sound.set, List.mem_toFinset] at hset
    unfold Channel.sendFinish at hstep hsound
    split at hstep
    · next hfull =>
      cases hstep
      rw [if_pos hfull] at hsound
      exact h.happen rfl hnew hsound rfl rfl
    · next hroom =>
      cases hstep
      rw [if_neg hroom] at hsound
      exact h.happen rfl trivial hsound (if_neg hnew) rfl
  | disconnect =>
    cases hstep
    exact h.quiet ⟨h.sound.set, h.sound.nodup, h.sound.bounded, h.sound.fresh, h.sound.seen,
      h.sound.awake⟩ rfl
  | recv r =>
    simp only [Channel.step, Option.bind_eq_bind, Option.bind_eq_some_iff,
      Option.ite_none_right_eq_some, Option.some.injEq] at hstep
    obtain ⟨rcv, hr, -, hstep⟩ := hstep
    cases hstep
    exact h.quiet (h.sound.move r (h.sound.seen rcv (List.mem_of_getElem? hr)) (by simp)) rfl
  | look r =>
    simp only [Channel.step, Option.bind_eq_bind, Option.bind_eq_some_iff,
      Option.ite_none_right_eq_some, Option.some.injEq] at hstep
    obtain ⟨rcv, hr, ⟨-, hfree⟩, hstep⟩ := hstep
    obtain ⟨rfl, rfl⟩ := Prod.mk.inj hstep
    exact h.looked (List.mem_of_getElem? hr) hfree
  | changed r =>
    simp only [Channel.step, Option.bind_eq_bind, Option.bind_eq_some_iff,
      Option.ite_none_right_eq_some] at hstep
    obtain ⟨rcv, hr, -, hstep⟩ := hstep
    split at hstep
    · cases hstep
      exact h.quiet (h.sound.move r (Nat.le_refl _) (by simp)) rfl
    · split at hstep
      · cases hstep
      · cases hstep
        exact h.unseen rfl (by simp)
          (h.sound.move r (h.sound.seen rcv (List.mem_of_getElem? hr)) (by simp)) rfl
  | cancel r =>
    simp only [Channel.step, Option.bind_eq_bind, Option.bind_eq_some_iff,
      Option.ite_none_right_eq_some, Option.some.injEq] at hstep
    obtain ⟨rcv, hr, -, hstep⟩ := hstep
    cases hstep
    exact h.quiet (h.sound.move r (h.sound.seen rcv (List.mem_of_getElem? hr)) (by simp)) rfl
  | clone r =>
    simp only [Channel.step, Option.bind_eq_bind, Option.bind_eq_some_iff,
      Option.ite_none_right_eq_some, Option.some.injEq] at hstep
    obtain ⟨rcv, hr, -, hstep⟩ := hstep
    cases hstep
    have hmem := List.mem_of_getElem? hr
    have hsame : ∀ rcv' ∈ c.receivers ++ [rcv], rcv' ∈ c.receivers := by
      intro rcv' hrcv'
      rcases List.mem_append.mp hrcv' with hold | hnew
      · exact hold
      · rw [List.mem_singleton.mp hnew]
        exact hmem
    exact h.quiet ⟨h.sound.set, h.sound.nodup, h.sound.bounded, h.sound.fresh,
      fun rcv' hrcv' => h.sound.seen rcv' (hsame rcv' hrcv'),
      fun rcv' hrcv' => h.sound.awake rcv' (hsame rcv' hrcv')⟩ rfl
  | drop r =>
    simp only [Channel.step, Option.bind_eq_bind, Option.bind_eq_some_iff,
      Option.ite_none_right_eq_some, Option.some.injEq] at hstep
    obtain ⟨rcv, hr, -, hstep⟩ := hstep
    cases hstep
    exact h.quiet (h.sound.move r (h.sound.seen rcv (List.mem_of_getElem? hr)) (by simp)) rfl

/-- A channel that lost its last receiver does not get another one. -/
theorem Channel.step_isClosed {c c' : Channel T} {shown : List (Shown T)} {a : ChannelAct T}
    (hstep : c.step a = some (c', shown)) (h : c.isClosed = true) : c'.isClosed = true := by
  have hgone : ∀ (r : ℕ) (rcv : Receiver), c.receivers[r]? = some rcv → rcv.phase = .dropped := by
    intro r rcv hr
    simpa using List.all_eq_true.mp h rcv (List.mem_of_getElem? hr)
  cases a with
  | sendStart v =>
    simp only [Channel.step, Option.ite_none_right_eq_some, Option.some.injEq] at hstep
    obtain ⟨-, hstep⟩ := hstep
    unfold Channel.sendStart at hstep
    rw [if_pos h, if_pos h] at hstep
    split at hstep
    · cases hstep
      exact h
    · cases hstep
      exact h
  | sendFinish =>
    simp only [Channel.step, Option.map_eq_some_iff] at hstep
    obtain ⟨v, -, hstep⟩ := hstep
    unfold Channel.sendFinish at hstep
    split at hstep
    · cases hstep
      exact h
    · cases hstep
      exact h
  | disconnect =>
    cases hstep
    exact h
  | _ r =>
    simp only [Channel.step, Option.bind_eq_bind, Option.bind_eq_some_iff,
      Option.ite_none_right_eq_some] at hstep
    obtain ⟨rcv, hr, hphase, -⟩ := hstep
    rw [hgone r rcv hr] at hphase
    simp at hphase

/-! ## 3. The system

The map of channels adds three things: subscriptions, sends that go over a copy of the keys, and channels that are
let go because nobody listens. The last is where a value could be lost, so that the keys a send will delete are
part of the invariant (`SendCall.Pending`). -/

/-- What channel `i` has shown. -/
def shownBy (i : ℕ) (trace : List (Label T)) : List (Shown T) :=
  trace.filterMap fun
    | .channel j e => if j = i then some e else none
    | _ => none

omit [DecidableEq T] in
theorem shownBy_append (i : ℕ) (a b : List (Label T)) :
    shownBy i (a ++ b) = shownBy i a ++ shownBy i b := by
  simp [shownBy]

omit [DecidableEq T] in
theorem shownBy_map_channel (i j : ℕ) (shown : List (Shown T)) :
    shownBy j (shown.map (.channel i)) = if i = j then shown else [] := by
  unfold shownBy
  rw [List.filterMap_map]
  by_cases hij : i = j
  · subst hij
    simp
  · simp [hij]

/-- The keys of a running `send` are in the map, and those it will delete are of channels that nobody
listens to. -/
structure SendCall.Pending (s : System T) (call : SendCall T) : Prop where
  nodup : (call.toDelete ++ call.todo).Nodup
  present : ∀ k ∈ call.toDelete ++ call.todo, (s.map.get k).isSome
  closed : ∀ k ∈ call.toDelete, ∀ (i : ℕ) (c : Channel T), s.map.get k = some i →
    s.channels[i]? = some c → c.isClosed = true

/-- **The invariant of the system**: each channel is lossless, and a running `send` will delete only what nobody
listens to. -/
structure System.Lossless (s : System T) (trace : List (Label T)) : Prop where
  channels : ∀ (i : ℕ) (c : Channel T), s.channels[i]? = some c → c.Lossless (shownBy i trace)
  unborn : ∀ i, s.channels.length ≤ i → shownBy i trace = []
  unharmed : Label.mapPanicked ∉ trace
  call : ∀ call, s.call = some call → call.Pending s
  mapped : ∀ k i, s.map.get k = some i → i < s.channels.length
  /-- No channel is taken from someone who listens. -/
  registered : s.senders = true → ∀ (i : ℕ) (c : Channel T), s.channels[i]? = some c →
    c.isClosed = false → ∃ k, s.map.get k = some i

theorem System.onChannel_cases {s s' : System T} {i : ℕ} {a : ChannelAct T} {shown : List (Shown T)}
    (h : s.onChannel i a = some (s', shown)) :
    ∃ c c', s.channels[i]? = some c ∧ c.step a = some (c', shown) ∧
      s' = { s with channels := s.channels.set i c' } := by
  simp only [System.onChannel, Option.bind_eq_bind, Option.bind_eq_some_iff, Option.some.injEq,
    Prod.mk.injEq] at h
  obtain ⟨c, hc, ⟨c', shown'⟩, hstep, rfl, rfl⟩ := h
  exact ⟨c, c', hc, hstep, rfl⟩

/-- A step of one channel, among all of them. -/
theorem System.Lossless.onChannel {s s' : System T} {trace : List (Label T)} (h : s.Lossless trace)
    {i : ℕ} {a : ChannelAct T} {shown : List (Shown T)}
    (hstep : s.onChannel i a = some (s', shown)) :
    s'.Lossless (trace ++ shown.map (.channel i)) := by
  obtain ⟨c, c', hc, hown, rfl⟩ := System.onChannel_cases hstep
  have hi : i < s.channels.length := (List.getElem?_eq_some_iff.mp hc).1
  have hkeep : ∀ j cj, (s.channels.set i c')[j]? = some cj →
      (j = i ∧ cj = c') ∨ (j ≠ i ∧ s.channels[j]? = some cj) := by
    intro j cj hj
    rw [List.getElem?_set] at hj
    by_cases hij : i = j
    · subst hij
      rw [if_pos rfl, if_pos hi] at hj
      exact .inl ⟨rfl, (Option.some.inj hj).symm⟩
    · rw [if_neg hij] at hj
      exact .inr ⟨fun heq => hij heq.symm, hj⟩
  exact {
    channels := by
      intro j cj hj
      rw [shownBy_append, shownBy_map_channel]
      rcases hkeep j cj hj with ⟨rfl, rfl⟩ | ⟨hne, hold⟩
      · rw [if_pos rfl]
        exact (h.channels j c hc).step hown
      · rw [if_neg (fun heq => hne heq.symm), List.append_nil]
        exact h.channels j cj hold
    unborn := by
      intro j hj
      rw [List.length_set] at hj
      rw [shownBy_append, shownBy_map_channel, h.unborn j hj, if_neg (by omega)]
      rfl
    unharmed := by
      intro hmem
      rcases List.mem_append.mp hmem with hmem | hmem
      · exact h.unharmed hmem
      · obtain ⟨e, -, he⟩ := List.mem_map.mp hmem
        cases he
    call := by
      intro call hcall
      have hpending := h.call call hcall
      refine ⟨hpending.nodup, hpending.present, fun k hk j cj hmap hj => ?_⟩
      rcases hkeep j cj hj with ⟨rfl, rfl⟩ | ⟨hne, hold⟩
      · exact Channel.step_isClosed hown (hpending.closed k hk j c hmap hc)
      · exact hpending.closed k hk j cj hmap hold
    mapped := by
      intro k j hk
      rw [List.length_set]
      exact h.mapped k j hk
    registered := by
      intro hsenders j cj hj hopen
      rcases hkeep j cj hj with ⟨rfl, rfl⟩ | ⟨hne, hold⟩
      · refine h.registered hsenders j c hc (Bool.eq_false_iff.mpr fun hclosed => ?_)
        rw [Channel.step_isClosed hown hclosed] at hopen
        cases hopen
      · exact h.registered hsenders j cj hold hopen }

/-- The labels of the map alone. -/
theorem System.Lossless.label {s : System T} {trace : List (Label T)} (h : s.Lossless trace)
    (n : ℕ) : s.Lossless (trace ++ [.returned n]) := by
  have hsame : ∀ i, shownBy i (trace ++ [.returned n]) = shownBy i trace := by
    intro i
    rw [shownBy_append]
    exact List.append_nil _
  exact {
    channels := fun i c hc => hsame i ▸ h.channels i c hc
    unborn := fun i hi => hsame i ▸ h.unborn i hi
    unharmed := by
      intro hmem
      rcases List.mem_append.mp hmem with hmem | hmem
      · exact h.unharmed hmem
      · cases List.mem_singleton.mp hmem
    call := h.call
    mapped := h.mapped
    registered := h.registered }

/-- A channel that is let go by the sender keeps its contents and its receivers. -/
theorem System.disconnect_channel {s : System T} {gone : List ℕ} {i : ℕ} {c' : Channel T}
    (h : (s.disconnect gone).channels[i]? = some c') :
    ∃ c, s.channels[i]? = some c ∧ c'.isClosed = c.isClosed ∧
      ∀ trace, c.Lossless trace → c'.Lossless trace := by
  unfold System.disconnect at h
  rw [List.getElem?_mapIdx] at h
  obtain ⟨c, hc, rfl⟩ := Option.map_eq_some_iff.mp h
  refine ⟨c, hc, ?_, fun trace hl => ?_⟩
  · split
    · rfl
    · rfl
  · split
    · exact ⟨⟨hl.sound.set, hl.sound.nodup, hl.sound.bounded, hl.sound.fresh, hl.sound.seen,
        hl.sound.awake⟩, hl.orderly, hl.outstanding, hl.owing, hl.unharmed⟩
    · exact hl

omit [DecidableEq T] in
theorem System.disconnect_length (s : System T) (gone : List ℕ) :
    (s.disconnect gone).channels.length = s.channels.length := by
  simp [System.disconnect]

omit [DecidableEq T] in
theorem nextKey_fresh (map : Table ℕ ℕ) : map.get (nextKey map) = none := by
  by_contra hsome
  obtain ⟨i, hi⟩ := Option.ne_none_iff_exists'.mp hsome
  have hkey := Table.mem_keys_of_get hi
  unfold nextKey at hkey
  cases hmax : Table.greatest map.keys with
  | none =>
    rw [Table.greatest_none hmax] at hkey
    simp at hkey
  | some m =>
    rw [hmax] at hkey
    have hle := Table.le_greatest hmax hkey
    simp at hle

/-- Keys that are there, each once, can all be removed. -/
theorem removeAll_isSome (ks : List ℕ) : ∀ (map : Table ℕ ℕ), ks.Nodup →
    (∀ k ∈ ks, (map.get k).isSome) → ∃ map', removeAll map ks = some map' ∧
      ∀ k, map'.get k = if k ∈ ks then none else map.get k := by
  induction ks with
  | nil =>
    intro map _ _
    exact ⟨map, rfl, fun k => by simp⟩
  | cons k ks ih =>
    intro map hnodup hpresent
    obtain ⟨hk, hks⟩ := List.nodup_cons.mp hnodup
    have hrest : ∀ k' ∈ ks, ((map.remove k).get k').isSome := by
      intro k' hk'
      have hne : k' ≠ k := by
        rintro rfl
        exact hk hk'
      rw [Table.get_remove_of_ne _ hne]
      exact hpresent k' (List.mem_cons_of_mem _ hk')
    obtain ⟨map', hremove, hget⟩ := ih (map.remove k) hks hrest
    refine ⟨map', ?_, fun k' => ?_⟩
    · rw [removeAll, if_pos (hpresent k List.mem_cons_self)]
      exact hremove
    · rw [hget k', Table.get_remove]
      by_cases hkk : k' = k
      · simp [hkk]
      · simp [hkk]

/-- **How a send ends**: refused because nobody listens, or with its value in the queue, or with the
channel marked. -/
theorem Channel.Lossless.step_sent {c c' : Channel T} {trace shown : List (Shown T)}
    {a : ChannelAct T} (h : c.Lossless trace) (hstep : c.step a = some (c', shown)) {v : T}
    {result : Except SendError Unit} (hsent : Shown.sent v result ∈ shown) :
    (result = .error .closed ∧ c.isClosed = true) ∨
      (result ≠ .error .closed ∧ (v ∈ c'.inner.queue ∨ c'.inner.lagged = true)) := by
  cases a with
  | sendStart w =>
    simp only [Channel.step, Option.ite_none_right_eq_some, Option.some.injEq] at hstep
    obtain ⟨-, hstep⟩ := hstep
    unfold Channel.sendStart at hstep
    split at hstep
    · next hv =>
      split at hstep
      · next hclosed =>
        cases hstep
        cases List.mem_singleton.mp hsent
        exact .inl ⟨rfl, hclosed⟩
      · cases hstep
        cases List.mem_singleton.mp hsent
        have hmem : v ∈ c.inner.queue := by rwa [← h.sound.set, List.mem_toFinset] at hv
        exact .inr ⟨by simp, .inl hmem⟩
    · split at hstep
      · next hclosed =>
        cases hstep
        cases List.mem_singleton.mp hsent
        exact .inl ⟨rfl, hclosed⟩
      · cases hstep
        cases hsent
  | sendFinish =>
    simp only [Channel.step, Option.map_eq_some_iff] at hstep
    obtain ⟨w, -, hstep⟩ := hstep
    unfold Channel.sendFinish at hstep
    split at hstep
    · cases hstep
      cases List.mem_singleton.mp hsent
      exact .inr ⟨by simp, .inr rfl⟩
    · cases hstep
      cases List.mem_singleton.mp hsent
      exact .inr ⟨by simp, .inl (by simp)⟩
  | look r =>
    simp only [Channel.step, Option.bind_eq_bind, Option.bind_eq_some_iff,
      Option.ite_none_right_eq_some, Option.some.injEq] at hstep
    obtain ⟨rcv, -, -, hstep⟩ := hstep
    obtain ⟨-, rfl⟩ := Prod.mk.inj hstep
    rcases h.sound.look_cases r with ⟨-, -, hlook⟩ | ⟨-, -, hlook⟩ | ⟨_, _, -, hlook⟩
    · simp [hlook] at hsent
    · simp [hlook] at hsent
    · simp [hlook] at hsent
  | changed r =>
    simp only [Channel.step, Option.bind_eq_bind, Option.bind_eq_some_iff,
      Option.ite_none_right_eq_some] at hstep
    obtain ⟨rcv, -, -, hstep⟩ := hstep
    split at hstep
    · cases hstep
      cases hsent
    · split at hstep
      · cases hstep
      · cases hstep
        simp at hsent
  | disconnect =>
    cases hstep
    cases hsent
  | _ r =>
    simp only [Channel.step, Option.bind_eq_bind, Option.bind_eq_some_iff,
      Option.ite_none_right_eq_some, Option.some.injEq] at hstep
    obtain ⟨rcv, -, -, hstep⟩ := hstep
    cases hstep
    cases hsent

omit [DecidableEq T] in
/-- The running `send` goes on to the next key, or puts its key aside. -/
theorem SendCall.Pending.count {s : System T} {call : SendCall T} (h : call.Pending s) {k : ℕ}
    {rest : List ℕ} (htodo : call.todo = k :: rest) (shown : List (Shown T))
    (hclosed : ∀ v, shown = [.sent v (.error .closed)] → ∀ (i : ℕ) (c : Channel T),
      s.map.get k = some i → s.channels[i]? = some c → c.isClosed = true) :
    (call.count k rest shown).Pending s := by
  have hsub : (call.toDelete ++ rest).Sublist (call.toDelete ++ call.todo) := by
    rw [htodo]
    exact List.Sublist.append_left (List.sublist_cons_self k rest) _
  have hdone : ({ call with todo := rest } : SendCall T).Pending s :=
    ⟨h.nodup.sublist hsub, fun k' hk' => h.present k' (hsub.subset hk'), h.closed⟩
  unfold SendCall.count
  split
  · exact ⟨hdone.nodup, hdone.present, hdone.closed⟩
  · next v =>
    have hsame : call.toDelete ++ [k] ++ rest = call.toDelete ++ call.todo := by
      rw [htodo, List.append_assoc]
      rfl
    refine ⟨hsame ▸ h.nodup, fun k' hk' => h.present k' (hsame ▸ hk'), fun k' hk' i c hmap hc => ?_⟩
    rcases List.mem_append.mp hk' with hk' | hk'
    · exact h.closed k' hk' i c hmap hc
    · rw [List.mem_singleton.mp hk'] at hmap
      exact hclosed v rfl i c hmap hc
  · exact hdone
  · exact h

theorem System.Lossless.setCall {s : System T} {trace : List (Label T)} (h : s.Lossless trace)
    {call : SendCall T} (hcall : call.Pending s) :
    ({ s with call := some call } : System T).Lossless trace where
  channels := h.channels
  unborn := h.unborn
  unharmed := h.unharmed
  call := fun call' h' => by
    cases h'
    exact ⟨hcall.nodup, hcall.present, hcall.closed⟩
  mapped := h.mapped
  registered := h.registered

/-- Channels that nobody listens to are let go. -/
theorem System.Lossless.letGo {s : System T} {trace : List (Label T)} (h : s.Lossless trace)
    (gone : List ℕ) {map : Table ℕ ℕ} {senders : Bool}
    (hmap : ∀ k i, map.get k = some i → s.map.get k = some i)
    (hkept : senders = true → s.senders = true ∧ ∀ k i, s.map.get k = some i →
      map.get k = some i ∨ ∀ c : Channel T, s.channels[i]? = some c → c.isClosed = true) :
    ({ s.disconnect gone with map := map, call := none, senders := senders } : System T).Lossless
      trace where
  channels := fun i c' hc' => by
    obtain ⟨c, hc, -, hl⟩ := System.disconnect_channel hc'
    exact hl _ (h.channels i c hc)
  unborn := fun i hi => h.unborn i (by rwa [← System.disconnect_length s gone])
  unharmed := h.unharmed
  call := fun call h' => by cases h'
  mapped := fun k i hk => by
    show i < (s.disconnect gone).channels.length
    rw [System.disconnect_length]
    exact h.mapped k i (hmap k i hk)
  registered := fun hsenders i c' hc' hopen => by
    obtain ⟨c, hc, hsame, -⟩ := System.disconnect_channel hc'
    obtain ⟨hbefore, hkeys⟩ := hkept hsenders
    obtain ⟨k, hk⟩ := h.registered hbefore i c hc (hsame ▸ hopen)
    rcases hkeys k i hk with hk' | hclosed
    · exact ⟨k, hk'⟩
    · rw [hsame, hclosed c hc] at hopen
      cases hopen

/-- A call of `send` has all the keys ahead of it. -/
theorem System.Lossless.sendStart {s s' : System T} {trace shown : List (Label T)} {v : T} (h : s.Lossless trace)
    (hstep : s.step (.send v) = some (s', shown)) : s'.Lossless (trace ++ shown) := by
  simp only [System.step, Option.ite_none_right_eq_some, Option.some.injEq, Prod.mk.injEq] at hstep
  obtain ⟨-, rfl, rfl⟩ := hstep
  rw [List.append_nil]
  refine h.setCall ⟨Finset.sort_nodup _ _, fun k hk => ?_, fun k hk => by cases hk⟩
  obtain ⟨i, hi⟩ := Table.mem_keys.mp ((Finset.mem_sort _).mp hk)
  rw [hi]
  rfl

/-- It sends on the channel of one key. -/
theorem System.Lossless.sendOn {s s' : System T} {trace shown : List (Label T)} (h : s.Lossless trace)
    (hstep : s.step .sendOn = some (s', shown)) : s'.Lossless (trace ++ shown) := by
  simp only [System.step, Option.bind_eq_bind, Option.bind_eq_some_iff] at hstep
  obtain ⟨call, hcall, hstep⟩ := hstep
  split at hstep
  · cases hstep
  · next k rest htodo =>
    simp only [Option.bind_eq_some_iff, Option.some.injEq, Prod.mk.injEq] at hstep
    obtain ⟨i, hi, c, hc, ⟨s₁, shown₁⟩, hon, rfl, rfl⟩ := hstep
    have hnext := h.onChannel hon
    obtain ⟨c₀, c', hc₀, hown, rfl⟩ := System.onChannel_cases hon
    refine hnext.setCall ((hnext.call call hcall).count htodo shown₁ fun v hshown j cj hj hcj => ?_)
    -- the key belongs to the channel of this step
    have hij : i = j := Option.some.inj (hi.symm.trans hj)
    subst hij
    have hset : cj = c' := by
      have hlt : i < s.channels.length := (List.getElem?_eq_some_iff.mp hc₀).1
      have hget : (s.channels.set i c')[i]? = some c' := by
        rw [List.getElem?_set, if_pos rfl, if_pos hlt]
      exact Option.some.inj (hcj.symm.trans hget)
    rcases (h.channels i c₀ hc₀).step_sent hown (hshown ▸ List.mem_singleton_self _) with
      ⟨-, hclosed⟩ | ⟨hne, -⟩
    · rw [hset]
      exact Channel.step_isClosed hown hclosed
    · exact absurd rfl hne

/-- When it returns, it lets go the keys of closed channels only. -/
theorem System.Lossless.sendReturn {s s' : System T} {trace shown : List (Label T)} (h : s.Lossless trace)
    (hstep : s.step .sendReturn = some (s', shown)) : s'.Lossless (trace ++ shown) := by
  simp only [System.step, Option.bind_eq_bind, Option.bind_eq_some_iff] at hstep
  obtain ⟨call, hcall, hstep⟩ := hstep
  split at hstep
  · cases hstep
  · next htodo =>
    have hpending := h.call call hcall
    have hnodup : call.toDelete.Nodup := hpending.nodup.sublist (List.sublist_append_left _ _)
    have hpresent : ∀ k ∈ call.toDelete, (s.map.get k).isSome :=
      fun k hk => hpending.present k (List.mem_append_left _ hk)
    obtain ⟨map, hremove, hget⟩ := removeAll_isSome call.toDelete s.map hnodup hpresent
    rw [hremove] at hstep
    cases hstep
    refine (h.letGo _ (fun k i hk => ?_) fun hsenders => ⟨hsenders, fun k i hk => ?_⟩).label _
    · rw [hget k] at hk
      split at hk
      · cases hk
      · exact hk
    · by_cases hdel : k ∈ call.toDelete
      · exact .inr fun c hc => hpending.closed k hdel i c hk hc
      · exact .inl (by rw [hget k, if_neg hdel, hk])

/-- A subscription adds a channel that has lost nothing yet, under a key that is not taken. -/
theorem System.Lossless.subscribe {s s' : System T} {trace shown : List (Label T)} {capacity : ℕ} (h : s.Lossless trace)
    (hstep : s.step (.subscribe capacity) = some (s', shown)) : s'.Lossless (trace ++ shown) := by
  simp only [System.step, Option.ite_none_right_eq_some, Option.some.injEq, Prod.mk.injEq] at hstep
  obtain ⟨⟨-, hfree⟩, rfl, rfl⟩ := hstep
  have hfresh := nextKey_fresh s.map
  rw [if_neg (by simp [hfresh]), List.append_nil]
  have hnew : ∀ (i : ℕ) (c : Channel T),
      (s.channels ++ [Channel.subscribed capacity])[i]? = some c →
      s.channels[i]? = some c ∨ (i = s.channels.length ∧ c = .subscribed capacity) := by
    intro i c hc
    rw [List.getElem?_append] at hc
    split at hc
    · exact .inl hc
    · next hlen =>
      rw [List.getElem?_singleton] at hc
      split at hc
      · next hzero => exact .inr ⟨by omega, (Option.some.inj hc).symm⟩
      · cases hc
  exact {
    channels := fun i c hc => by
      rcases hnew i c hc with hold | ⟨rfl, rfl⟩
      · exact h.channels i c hold
      · rw [h.unborn _ (Nat.le_refl _)]
        exact Channel.lossless_subscribed capacity
    unborn := fun i hi => h.unborn i (by
      rw [List.length_append, List.length_singleton] at hi
      omega)
    unharmed := h.unharmed
    call := fun call hcall => by
      rw [show s.call = some call from hcall] at hfree
      cases hfree
    mapped := fun k i hk => by
      rw [List.length_append, List.length_singleton]
      rw [Table.get_insert] at hk
      split at hk
      · cases hk
        omega
      · exact Nat.lt_succ_of_lt (h.mapped k i hk)
    registered := fun hsenders i c hc hopen => by
      rcases hnew i c hc with hold | ⟨rfl, rfl⟩
      · obtain ⟨k, hk⟩ := h.registered hsenders i c hold hopen
        have hne : k ≠ nextKey s.map := by
          rintro rfl
          rw [hfresh] at hk
          cases hk
        exact ⟨k, (Table.get_insert_of_ne _ _ hne).trans hk⟩
      · exact ⟨nextKey s.map, Table.get_insert_self _ _ _⟩ }

/-- Without senders, every channel is let go. -/
theorem System.Lossless.dropSenders {s s' : System T} {trace shown : List (Label T)} (h : s.Lossless trace)
    (hstep : s.step .dropSenders = some (s', shown)) : s'.Lossless (trace ++ shown) := by
  simp only [System.step, Option.ite_none_right_eq_some, Option.some.injEq, Prod.mk.injEq] at hstep
  obtain ⟨⟨-, hfree⟩, rfl, rfl⟩ := hstep
  rw [List.append_nil]
  have hnone : s.call = none := Option.isNone_iff_eq_none.mp hfree
  have hempty : ∀ k i, (∅ : Table ℕ ℕ).get k = some i → s.map.get k = some i :=
    fun k i hk => by simp at hk
  have hgone := h.letGo ((s.map.keys.sort (· ≤ ·)).filterMap s.map.get) hempty
    (fun hs : false = true => by cases hs)
  simpa [System.disconnect, hnone] using hgone

/-- **Every step keeps the system lossless.** The steps of one channel are seen by that channel alone; those of the
map are one lemma each. -/
theorem System.Lossless.step {s s' : System T} {trace shown : List (Label T)} {a : Act T}
    (h : s.Lossless trace) (hstep : s.step a = some (s', shown)) : s'.Lossless (trace ++ shown) := by
  cases a with
  | send v => exact h.sendStart hstep
  | sendOn => exact h.sendOn hstep
  | sendReturn => exact h.sendReturn hstep
  | subscribe capacity => exact h.subscribe hstep
  | dropSenders => exact h.dropSenders hstep
  | receive i a =>
    simp only [System.step, Option.ite_none_right_eq_some, Option.map_eq_some_iff, Prod.mk.injEq]
      at hstep
    obtain ⟨-, ⟨s₁, shown₁⟩, hon, rfl, rfl⟩ := hstep
    exact h.onChannel hon

theorem System.lossless_empty : ({} : System T).Lossless [] where
  channels := fun i c h => by simp at h
  unborn := fun i _ => rfl
  unharmed := by simp
  call := fun call h => by cases h
  mapped := fun k i h => by simp at h
  registered := fun _ i c h => by simp at h

theorem ran_lossless (acts : List (Act T)) : (ran acts).1.Lossless (ran acts).2 :=
  Machine.run_invariant System.lossless_empty acts fun _ _ _ _ _ _ h hstep => h.step hstep

/-! ### What this says about one channel

The invariant is stated for the system. A reader of the result wants to know about one channel and about one send,
and `Kept` and `SendAnswered` put it in these terms. -/

/-- A channel that has lost nothing so far. -/
structure Channel.Kept (c : Channel T) (trace : List (Shown T)) : Prop where
  set : c.inner.set = c.inner.queue.toFinset
  nodup : c.inner.queue.Nodup
  bounded : c.inner.queue.length ≤ c.capacity
  unharmed : Shown.panicked ∉ trace
  /-- Queued are the values with a send that nobody received, in the order of the first such send. -/
  queue : c.inner.queue = outstanding (history trace)
  /-- What was received is always the first of these. -/
  received : ∀ before v after, history trace = before ++ .taken v :: after →
    (outstanding before).head? = some v
  /-- Each of them was received once, or is still queued. -/
  once : takes (history trace) ++ c.inner.queue = firsts (history trace)
  /-- After a drop somebody is told so before anybody sleeps. -/
  warned : ∀ before v between after,
    history trace = before ++ .dropped v :: between ++ .slept :: after → .warned ∈ between
  awake : ∀ rcv ∈ c.receivers, rcv.phase = .waiting → rcv.seen = c.version →
    c.inner.queue = [] ∧ c.inner.lagged = false

theorem Channel.Lossless.kept {c : Channel T} {trace : List (Shown T)} (h : c.Lossless trace) :
    c.Kept trace where
  set := h.sound.set.symm
  nodup := h.sound.nodup
  bounded := h.sound.bounded
  unharmed := h.unharmed
  queue := h.outstanding.symm
  received := fun before v after heq => h.orderly before (.taken v) after heq
  once := h.outstanding ▸ h.orderly.takes_append
  warned := fun before v between after heq => (heq ▸ h.orderly).warned_before_sleep
  awake := by
    intro rcv hmem hwait hseen
    have hidle : ¬c.Busy := fun hb =>
      absurd hseen (Nat.ne_of_lt (h.sound.awake rcv hmem hwait hb))
    refine ⟨?_, ?_⟩
    · by_contra hq
      exact hidle (.inl hq)
    · exact Bool.eq_false_iff.mpr fun hl => hidle (.inr (.inl hl))

/-- How one send to channel `i` ends, between the states around its last step. -/
def SendAnswered (s s' : System T) (i : ℕ) (v : T) (result : Except SendError Unit) : Prop :=
  ∃ c c', s.channels[i]? = some c ∧ s'.channels[i]? = some c' ∧
    ((result = .error .closed ∧ c.isClosed = true) ∨
      (result ≠ .error .closed ∧ (v ∈ c'.inner.queue ∨ c'.inner.lagged = true)))

theorem System.onChannel_answered {s s' : System T} {trace : List (Label T)} (h : s.Lossless trace)
    {i : ℕ} {a : ChannelAct T} {shown : List (Shown T)}
    (hstep : s.onChannel i a = some (s', shown)) {v : T} {result : Except SendError Unit}
    (hsent : Shown.sent v result ∈ shown) : SendAnswered s s' i v result := by
  obtain ⟨c, c', hc, hown, rfl⟩ := System.onChannel_cases hstep
  have hlt : i < s.channels.length := (List.getElem?_eq_some_iff.mp hc).1
  refine ⟨c, c', hc, ?_, (h.channels i c hc).step_sent hown hsent⟩
  show (s.channels.set i c')[i]? = some c'
  rw [List.getElem?_set, if_pos rfl, if_pos hlt]

theorem System.step_answered {s s' : System T} {trace shown : List (Label T)} {a : Act T}
    (h : s.Lossless trace) (hstep : s.step a = some (s', shown)) {i : ℕ} {v : T}
    {result : Except SendError Unit} (hsent : Label.channel i (.sent v result) ∈ shown) :
    SendAnswered s s' i v result := by
  cases a with
  | send w =>
    simp only [System.step, Option.ite_none_right_eq_some, Option.some.injEq, Prod.mk.injEq] at hstep
    obtain ⟨-, -, rfl⟩ := hstep
    cases hsent
  | sendOn =>
    simp only [System.step, Option.bind_eq_bind, Option.bind_eq_some_iff] at hstep
    obtain ⟨call, -, hstep⟩ := hstep
    split at hstep
    · cases hstep
    · next k rest htodo =>
      simp only [Option.bind_eq_some_iff, Option.some.injEq, Prod.mk.injEq] at hstep
      obtain ⟨j, -, c, -, ⟨s₁, shown₁⟩, hon, rfl, rfl⟩ := hstep
      obtain ⟨e, he, heq⟩ := List.mem_map.mp hsent
      cases heq
      exact System.onChannel_answered h hon he
  | sendReturn =>
    simp only [System.step, Option.bind_eq_bind, Option.bind_eq_some_iff] at hstep
    obtain ⟨call, -, hstep⟩ := hstep
    split at hstep
    · cases hstep
    · split at hstep
      · cases hstep
        simp at hsent
      · cases hstep
        simp at hsent
  | subscribe capacity =>
    simp only [System.step, Option.ite_none_right_eq_some, Option.some.injEq, Prod.mk.injEq] at hstep
    obtain ⟨-, -, rfl⟩ := hstep
    split at hsent
    · simp at hsent
    · cases hsent
  | dropSenders =>
    simp only [System.step, Option.ite_none_right_eq_some, Option.some.injEq, Prod.mk.injEq] at hstep
    obtain ⟨-, -, rfl⟩ := hstep
    cases hsent
  | receive j a =>
    simp only [System.step, Option.ite_none_right_eq_some, Option.map_eq_some_iff, Prod.mk.injEq]
      at hstep
    obtain ⟨-, ⟨s₁, shown₁⟩, hon, rfl, rfl⟩ := hstep
    obtain ⟨e, he, heq⟩ := List.mem_map.mp hsent
    cases heq
    exact System.onChannel_answered h hon he

/-- **The deduplicating channel loses nothing**, in every interleaving of sends, subscriptions, clones,
drops and `recv` calls that are cancelled at will: every channel has kept what it was sent, no panic is
reached, whoever listens is in the sender's map, and the next step leaves the value it sends in the
queue or the channel marked, unless nobody listens. -/
theorem channel_loses_nothing (acts : List (Act T)) :
    (∀ (i : ℕ) (c : Channel T), (ran acts).1.channels[i]? = some c →
      c.Kept (shownBy i (ran acts).2) ∧
        ((ran acts).1.senders = true → c.isClosed = false → ∃ k, (ran acts).1.map.get k = some i)) ∧
    Label.mapPanicked ∉ (ran acts).2 ∧
    ∀ a s' shown, (ran acts).1.step a = some (s', shown) → ∀ i v result,
      Label.channel i (.sent v result) ∈ shown → SendAnswered (ran acts).1 s' i v result := by
  have h := ran_lossless acts
  refine ⟨fun i c hc => ⟨(h.channels i c hc).kept, fun hs ho => h.registered hs i c hc ho⟩,
    h.unharmed, fun a s' shown hstep i v result hsent => System.step_answered h hstep hsent⟩

/-- A receiver that waits for a queue of one place is woken, takes the first value, and learns that the
second one was dropped. -/
example : history (shownBy 0 (ran [.subscribe 1, .receive 0 (.recv 0), .receive 0 (.look 0), .send 8,
    .sendOn, .receive 0 (.changed 0), .sendOn, .sendReturn, .send 9, .sendOn, .sendOn, .sendReturn,
    .receive 0 (.look 0), .receive 0 (.recv 0), .receive 0 (.look 0)]).2) =
      [.slept, .sent 8, .dropped 9, .taken 8, .warned] := by
  decide +kernel

end Rostra.DedupChan
