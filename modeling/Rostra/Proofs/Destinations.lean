/-
# Destination selection equals the direct definition

The direct definition (`eligibleRanks`, `directDestinations`) looks at every device row.  The code
looks at 65 blocks of an index and at nine rows of each.  Three things make the two agree.

* The blocks of an interval are a disjoint cover, so a device whose interval has the clock value in
  it is met in exactly one of the 65 blocks, and any other device in none (`mem_cover_iff`).
* The index holds the rows of the device table and no others (`Indexed`), whatever order the
  announcements arrived in; and a device's state is a function of the set of them (`StateOf`).
* Nine rows are one more than the eight that are kept, which makes up for the one row that is
  skipped (`Newest.newest_filter_subset`); merging can then go block by block, because elements that
  are not among the newest do not matter (`Newest.newest_eq_of_subset`).

The order of the announcements does not come in at all: the state of a device is a function of a set, and
everything after it is a function of these states. What is not shown is that nine rows are needed; eight would be
too few only if the sending installation is among them.
-/
import Rostra.Db.Destinations
import Rostra.Lib.Outcome
import Rostra.Proofs.Cover

namespace Rostra.Db

open Rostra Outcome Newest

variable [Primitives]

/-! ## 1. What the announcements say of one device

A retirement wins over every epoch, wherever it comes in the order. Among the epochs the newest wins, by time and
then by id, which no two of them share. -/

/-- The announcement of `event` is about this device. -/
def Concerns (source : ShortEventId → Announced) (account : RostraId) (device : Bytes)
    (event : ShortEventId) : Prop :=
  (source event).account = account ∧ (source event).announcement.deviceId = device

instance (source : ShortEventId → Announced) (account : RostraId) (device : Bytes)
    (event : ShortEventId) : Decidable (Concerns source account device event) :=
  inferInstanceAs (Decidable (_ ∧ _))

/-- The newest of the epochs announced for a device. -/
def LatestOf (source : ShortEventId → Announced) (events : List ShortEventId) (account : RostraId)
    (device : Bytes) : Option (Timestamp × ShortEventId × Dm.EpochPublic) → Prop
  | none => ∀ e ∈ events, Concerns source account device e →
      (source e).announcement.epoch = none
  | some (timestamp, event, epoch) =>
    event ∈ events ∧ Concerns source account device event ∧
      (source event).timestamp = timestamp ∧ (source event).announcement.epoch = some epoch ∧
      ∀ e ∈ events, Concerns source account device e → (source e).announcement.epoch ≠ none →
        toLex ((source e).timestamp, e) ≤ toLex (timestamp, event)

/-- **The state of a device, as a function of the set of its announcements**: retired if any of them
was a retirement, otherwise the newest. -/
structure StateOf (source : ShortEventId → Announced) (events : List ShortEventId)
    (account : RostraId) (device : Bytes) (state : Dm.DeviceState) : Prop where
  retired : state.retired = true ↔
    ∃ e ∈ events, Concerns source account device e ∧ (source e).announcement.epoch = none
  gone : state.retired = true → state.latest = none
  latest : state.retired = false → LatestOf source events account device state.latest

theorem stateOf_new (source : ShortEventId → Announced) (account : RostraId) (device : Bytes) :
    StateOf source [] account device {} :=
  ⟨by simp, fun h => by simp at h, fun _ => by simp [LatestOf]⟩

/-- Only the set matters. -/
theorem StateOf.congr {source : ShortEventId → Announced} {events events' : List ShortEventId}
    {account : RostraId} {device : Bytes} {state : Dm.DeviceState}
    (h : StateOf source events account device state) (hset : ∀ e, e ∈ events' ↔ e ∈ events) :
    StateOf source events' account device state := by
  refine ⟨?_, h.gone, fun hr => ?_⟩
  · simp only [hset]
    exact h.retired
  · have hl := h.latest hr
    unfold LatestOf at hl ⊢
    simp only [hset]
    exact hl

/-- Two states of the same announcements are the same. -/
theorem StateOf.unique {source : ShortEventId → Announced} {events : List ShortEventId}
    {account : RostraId} {device : Bytes} {s s' : Dm.DeviceState}
    (h : StateOf source events account device s) (h' : StateOf source events account device s') :
    s = s' := by
  have hretired : s.retired = s'.retired := by
    rw [Bool.eq_iff_iff, h.retired, h'.retired]
  have hlatest : s.latest = s'.latest := by
    cases hr : s.retired with
    | true => rw [h.gone hr, h'.gone (hretired ▸ hr)]
    | false =>
      have hl := h.latest hr
      have hl' := h'.latest (hretired ▸ hr)
      cases hs : s.latest with
      | none =>
        cases hs' : s'.latest with
        | none => rfl
        | some l' =>
          rw [hs] at hl
          rw [hs'] at hl'
          have := hl l'.2.1 hl'.1 hl'.2.1
          rw [hl'.2.2.2.1] at this
          cases this
      | some l =>
        rw [hs] at hl
        cases hs' : s'.latest with
        | none =>
          rw [hs'] at hl'
          have := hl' l.2.1 hl.1 hl.2.1
          rw [hl.2.2.2.1] at this
          cases this
        | some l' =>
          rw [hs'] at hl'
          obtain ⟨ts, ev, epoch⟩ := l
          obtain ⟨ts', ev', epoch'⟩ := l'
          obtain ⟨hmem, hc, rfl, hepoch, hmax⟩ := hl
          obtain ⟨hmem', hc', rfl, hepoch', hmax'⟩ := hl'
          have hle := hmax' ev hmem hc (by rw [hepoch]; simp)
          have hge := hmax ev' hmem' hc' (by rw [hepoch']; simp)
          have heq := le_antisymm hle hge
          obtain ⟨-, rfl⟩ : (source ev).timestamp = (source ev').timestamp ∧ ev = ev' := by
            simpa using heq
          rw [hepoch, Option.some.injEq] at hepoch'
          rw [hepoch']
  cases s
  cases s'
  simp_all

/-- An announcement of another device changes nothing for this one. -/
theorem StateOf.other {source : ShortEventId → Announced} {events : List ShortEventId}
    {account : RostraId} {device : Bytes} {state : Dm.DeviceState} {event : ShortEventId}
    (h : StateOf source events account device state)
    (hother : ¬ Concerns source account device event) :
    StateOf source (events ++ [event]) account device state := by
  have hiff : ∀ e, Concerns source account device e → (e ∈ events ++ [event] ↔ e ∈ events) := by
    intro e he
    rw [List.mem_append, List.mem_singleton]
    exact ⟨fun h => h.resolve_right fun heq => hother (heq ▸ he), .inl⟩
  refine ⟨?_, h.gone, fun hr => ?_⟩
  · rw [h.retired]
    exact ⟨fun ⟨e, hm, hc, hn⟩ => ⟨e, (hiff e hc).mpr hm, hc, hn⟩,
      fun ⟨e, hm, hc, hn⟩ => ⟨e, (hiff e hc).mp hm, hc, hn⟩⟩
  · have hl := h.latest hr
    cases hs : state.latest with
    | none =>
      rw [hs] at hl
      exact fun e hm hc => hl e ((hiff e hc).mp hm) hc
    | some l =>
      rw [hs] at hl
      obtain ⟨hm, hc, hts, hepoch, hmax⟩ := hl
      exact ⟨(hiff _ hc).mpr hm, hc, hts, hepoch,
        fun e hm' hc' hn => hmax e ((hiff e hc').mp hm') hc' hn⟩

/-- **The reducer**: one more announcement of this device. It compares with the row alone, and the row is the state
of all that came before. -/
theorem StateOf.apply {source : ShortEventId → Announced} {events : List ShortEventId}
    {account : RostraId} {device : Bytes} {state : Dm.DeviceState} {event : ShortEventId}
    (h : StateOf source events account device state) (hc : Concerns source account device event) :
    StateOf source (events ++ [event]) account device
      (state.apply (source event).announcement (source event).timestamp event) := by
  have hself : event ∈ events ++ [event] := List.mem_append_right _ (List.mem_singleton_self _)
  have hold : ∀ e, e ∈ events → e ∈ events ++ [event] := fun e => List.mem_append_left _
  unfold Dm.DeviceState.apply
  cases hepoch : (source event).announcement.epoch with
  | none =>
    refine ⟨⟨fun _ => ⟨event, hself, hc, hepoch⟩, fun _ => rfl⟩, fun _ => rfl, fun hr => ?_⟩
    cases hr
  | some epoch =>
    have hretired : (∃ e ∈ events ++ [event], Concerns source account device e ∧
        (source e).announcement.epoch = none) ↔ state.retired = true := by
      rw [h.retired]
      constructor
      · rintro ⟨e, hm, hce, hn⟩
        rcases List.mem_append.mp hm with hm | hm
        · exact ⟨e, hm, hce, hn⟩
        · rw [List.mem_singleton.mp hm, hepoch] at hn
          cases hn
      · rintro ⟨e, hm, hce, hn⟩
        exact ⟨e, hold e hm, hce, hn⟩
    cases hr : state.retired with
    | true =>
      simp only [Bool.not_true, Bool.false_and, Bool.false_eq_true, if_false]
      exact ⟨hretired.symm, h.gone, fun hr' => by rw [hr] at hr'; cases hr'⟩
    | false =>
      have hl := h.latest hr
      have hnone : ¬ ∃ e ∈ events ++ [event], Concerns source account device e ∧
          (source e).announcement.epoch = none := by
        rw [hretired, hr]
        exact Bool.false_ne_true
      cases hs : state.latest with
      | none =>
        rw [hs] at hl
        simp only [Bool.not_false, Bool.and_self, if_true]
        refine ⟨iff_of_false Bool.false_ne_true hnone, fun hr' => absurd hr' Bool.false_ne_true,
          fun _ => ?_⟩
        refine ⟨hself, hc, rfl, hepoch, fun e hm hce hn => ?_⟩
        rcases List.mem_append.mp hm with hm | hm
        · exact absurd (hl e hm hce) hn
        · rw [List.mem_singleton.mp hm]
      | some l =>
        obtain ⟨ts, ev, epoch'⟩ := l
        rw [hs] at hl
        obtain ⟨hm, hcev, hts, hev, hmax⟩ := hl
        by_cases hnewer : toLex (ts, ev) < toLex ((source event).timestamp, event)
        · simp only [Bool.not_false, hnewer, decide_true, Bool.and_self, if_true]
          refine ⟨iff_of_false Bool.false_ne_true hnone, fun hr' => absurd hr' Bool.false_ne_true,
            fun _ => ?_⟩
          refine ⟨hself, hc, rfl, hepoch, fun e hm hce hn => ?_⟩
          rcases List.mem_append.mp hm with hm | hm
          · exact le_trans (hmax e hm hce hn) (le_of_lt hnewer)
          · rw [List.mem_singleton.mp hm]
        · simp only [Bool.not_false, hnewer, decide_false, Bool.and_false, Bool.false_eq_true,
            if_false]
          refine ⟨hretired.symm, h.gone, fun _ => ?_⟩
          rw [hs]
          refine ⟨hold ev hm, hcev, hts, hev, fun e hm hce hn => ?_⟩
          rcases List.mem_append.mp hm with hm | hm
          · exact hmax e hm hce hn
          · rw [List.mem_singleton.mp hm]
            exact not_lt.mp hnewer

/-! ## 2. The tables of a run

Device rows and index rows are written in the same transaction. The index is also rebuilt from the device rows, and
finds what was there. -/

/-- What the decoder promises of an epoch. -/
theorem decode_epoch {bytes : Bytes} {publishedAt : Timestamp} {a : Dm.Announcement}
    {epoch : Dm.EpochPublic} (hdecode : Dm.Announcement.decode bytes publishedAt = some a)
    (h : a.epoch = some epoch) : epoch.validate = true ∧ publishedAt ≤ Dm.i64Max := by
  unfold Dm.Announcement.decode at hdecode
  split at hdecode
  · cases hdecode
  · dsimp only at hdecode
    split at hdecode
    · cases hdecode
      cases h
    · split at hdecode
      · cases hdecode
      · rename_i hgood
        cases hdecode
        cases h
        simp only [Bool.or_eq_true, Bool.not_eq_true', decide_eq_true_eq, not_or,
          Bool.not_eq_false, not_lt] at hgood
        exact ⟨hgood.1.1, hgood.2⟩
    · cases hdecode

omit [Primitives] in
/-- The index rows of a device. -/
theorem mem_dmIndexRows {account : RostraId} {device : Bytes} {state : Dm.DeviceState}
    {key : RostraId × (ℕ × ℕ) × (Timestamp × ShortEventId × Bytes)} :
    key ∈ dmIndexRows account device state ↔
      ∃ ts ev epoch, state.latest = some (ts, ev, epoch) ∧ key.1 = account ∧
        key.2.1 ∈ Dm.intervalPrefixes (max epoch.sendFrom (ts - Dm.DM_FUTURE_ANNOUNCEMENT_SKEW))
          epoch.sendUntil ∧ key.2.2 = (ts, ev, device) := by
  unfold dmIndexRows
  cases hs : state.latest with
  | none => simp
  | some l =>
    obtain ⟨ts, ev, epoch⟩ := l
    simp only [List.mem_toFinset, List.mem_map, Option.some.injEq, Prod.mk.injEq]
    constructor
    · rintro ⟨block, hblock, rfl⟩
      exact ⟨ts, ev, epoch, ⟨rfl, rfl, rfl⟩, rfl, hblock, rfl⟩
    · rintro ⟨ts', ev', epoch', ⟨rfl, rfl, rfl⟩, haccount, hblock, hrank⟩
      exact ⟨key.2.1, hblock, Prod.ext haccount.symm (Prod.ext rfl hrank.symm)⟩

/-- **The index holds the rows of the device table**, and no others: one for each block of the interval of a device
that was not retired. -/
def IndexExact (p : Projections) : Prop :=
  ∀ key : RostraId × (ℕ × ℕ) × (Timestamp × ShortEventId × Bytes),
    key ∈ p.idsDmDevicesByInterval ↔
      ∃ state, p.idsDmDevices.get (key.1, key.2.2.2.2) = some state ∧
        key ∈ dmIndexRows key.1 key.2.2.2.2 state

/-- The device tables against the announcements that were applied. -/
structure DevicesOf (source : ShortEventId → Announced) (events : List ShortEventId)
    (p : Projections) : Prop where
  rows : ∀ account device, (p.idsDmDevices.get (account, device)).isSome ↔
    ∃ e ∈ events, Concerns source account device e
  states : ∀ account device,
    StateOf source events account device ((p.idsDmDevices.get (account, device)).getD {})
  index : IndexExact p

theorem devicesOf_new (source : ShortEventId → Announced) : DevicesOf source [] {} :=
  ⟨fun account device => by simp, fun account device => by simpa using stateOf_new source _ _,
    fun key => by simp⟩

omit [Primitives] in
theorem dmIndexRows_new (account : RostraId) (device : Bytes) :
    dmIndexRows account device {} = ∅ := rfl

omit [Primitives] in
/-- A row names the device it belongs to. -/
theorem dmIndexRows_owner {account : RostraId} {device : Bytes} {state : Dm.DeviceState}
    {key : RostraId × (ℕ × ℕ) × (Timestamp × ShortEventId × Bytes)}
    (h : key ∈ dmIndexRows account device state) : key.1 = account ∧ key.2.2.2.2 = device := by
  obtain ⟨ts, ev, epoch, -, haccount, -, hrank⟩ := mem_dmIndexRows.mp h
  exact ⟨haccount, by rw [hrank]⟩

omit [Primitives] in
/-- The index without a case for devices that have no row. -/
theorem IndexExact.mem_iff {p : Projections} (h : IndexExact p)
    {key : RostraId × (ℕ × ℕ) × (Timestamp × ShortEventId × Bytes)} :
    key ∈ p.idsDmDevicesByInterval ↔
      key ∈ dmIndexRows key.1 key.2.2.2.2 ((p.idsDmDevices.get (key.1, key.2.2.2.2)).getD {}) := by
  rw [h key]
  cases hg : p.idsDmDevices.get (key.1, key.2.2.2.2) with
  | none => simp [dmIndexRows_new]
  | some state => simp

/-- The device table after one announcement. -/
theorem announce_get (env : Env) (source : ShortEventId → Announced) (p : Projections)
    (event : ShortEventId) (account : RostraId) (device : Bytes) :
    (deviceStep env source p (.announce event)).idsDmDevices.get (account, device) =
      if Concerns source account device event then
        some (((p.idsDmDevices.get (account, device)).getD {}).apply (source event).announcement
          (source event).timestamp event)
      else p.idsDmDevices.get (account, device) := by
  simp only [deviceStep, dmApplyAnnouncementTx, Table.get_insert]
  by_cases hc : Concerns source account device event
  · obtain ⟨rfl, rfl⟩ := hc
    simp [Concerns]
  · rw [if_neg hc, if_neg]
    intro heq
    obtain ⟨haccount, hdevice⟩ := Prod.mk.inj heq
    exact hc ⟨haccount.symm, hdevice.symm⟩

/-- One announcement. -/
theorem DevicesOf.announce {env : Env} {source : ShortEventId → Announced}
    {events : List ShortEventId} {p : Projections} (h : DevicesOf source events p)
    (event : ShortEventId) :
    DevicesOf source (events ++ [event]) (deviceStep env source p (.announce event)) := by
  refine ⟨fun account device => ?_, fun account device => ?_, fun key => ?_⟩
  · rw [announce_get]
    split
    · rename_i hc
      exact iff_of_true rfl ⟨event, by simp, hc⟩
    · rename_i hc
      rw [h.rows]
      constructor
      · rintro ⟨e, hm, hce⟩
        exact ⟨e, List.mem_append_left _ hm, hce⟩
      · rintro ⟨e, hm, hce⟩
        rcases List.mem_append.mp hm with hm | hm
        · exact ⟨e, hm, hce⟩
        · exact absurd (List.mem_singleton.mp hm ▸ hce) hc
  · rw [announce_get]
    split
    · rename_i hc
      exact (h.states account device).apply hc
    · rename_i hc
      exact (h.states account device).other hc
  · rw [announce_get]
    simp only [deviceStep, dmApplyAnnouncementTx, Finset.mem_union, Finset.mem_sdiff]
    rw [h.index.mem_iff]
    by_cases hc : Concerns source key.1 key.2.2.2.2 event
    · obtain ⟨haccount, hdevice⟩ := hc
      rw [if_pos ⟨haccount, hdevice⟩, haccount, hdevice]
      simp
    · -- a row of another device is neither removed nor added
      have hnot : ∀ state, key ∉ dmIndexRows (source event).account
          (source event).announcement.deviceId state := by
        intro state hmem
        obtain ⟨haccount, hdevice⟩ := dmIndexRows_owner hmem
        exact hc ⟨haccount.symm, hdevice.symm⟩
      rw [if_neg hc, ← h.index key, h.index.mem_iff]
      simp [hnot]

/-- Rebuilding finds what was there. -/
theorem DevicesOf.rebuild {source : ShortEventId → Announced} {events : List ShortEventId}
    {p : Projections} (h : DevicesOf source events p) :
    DevicesOf source events (rebuildDmDeviceIndexTx p) := by
  refine ⟨h.rows, h.states, fun key => ?_⟩
  simp only [rebuildDmDeviceIndexTx, Finset.mem_biUnion]
  constructor
  · rintro ⟨owner, -, hmem⟩
    cases hg : p.idsDmDevices.get owner with
    | none => simp [hg] at hmem
    | some state =>
      rw [hg] at hmem
      obtain ⟨haccount, hdevice⟩ := dmIndexRows_owner hmem
      rw [haccount, hdevice]
      exact ⟨state, hg, hmem⟩
  · rintro ⟨state, hg, hmem⟩
    refine ⟨(key.1, key.2.2.2.2), Table.mem_keys_of_get hg, ?_⟩
    rw [hg]
    exact hmem

/-- One transaction. -/
theorem DevicesOf.step {env : Env} {source : ShortEventId → Announced}
    {events : List ShortEventId} {p : Projections} (h : DevicesOf source events p) (op : DeviceOp) :
    DevicesOf source (events ++ announcedBy [op]) (deviceStep env source p op) := by
  cases op with
  | announce event => exact h.announce event
  | install deviceId =>
    show DevicesOf source (events ++ []) _
    rw [List.append_nil]
    exact ⟨h.rows, h.states, h.index⟩
  | reenroll deviceId =>
    show DevicesOf source (events ++ []) _
    rw [List.append_nil]
    exact ⟨h.rows, h.states, h.index⟩
  | rebuild =>
    show DevicesOf source (events ++ []) _
    rw [List.append_nil]
    exact h.rebuild

/-- **The tables after any run** of announcements, enrolments and rebuilds. -/
theorem devicesReached_of (env : Env) (source : ShortEventId → Announced) (ops : List DeviceOp) :
    DevicesOf source (announcedBy ops) (devicesReached env source ops) := by
  have hgen : ∀ (ops : List DeviceOp) (events : List ShortEventId) (p : Projections),
      DevicesOf source events p →
        DevicesOf source (events ++ announcedBy ops) (ops.foldl (deviceStep env source) p) := by
    intro ops
    induction ops with
    | nil =>
      intro events p h
      rw [announcedBy, List.append_nil]
      exact h
    | cons op ops ih =>
      intro events p h
      have hrest := ih (events ++ announcedBy [op]) (deviceStep env source p op) (h.step op)
      cases op <;> simpa [announcedBy] using hrest
  exact hgen ops [] {} (devicesOf_new source)

/-! ## 3. The direct definition

This is the specification: it does not mention blocks, and it takes a function from devices to announcements for
granted. The code has no such definition anywhere. -/

def rankTime (rank : Rank) : Timestamp := (ofLex rank).1

def rankEvent (rank : Rank) : ShortEventId := (ofLex (ofLex rank).2).1

def rankDevice (rank : Rank) : Bytes := (ofLex (ofLex rank).2).2

omit [Primitives] in
/-- A row of the index is a rank. -/
theorem rank_ext {rank rank' : Rank} (h₁ : rankTime rank = rankTime rank')
    (h₂ : rankEvent rank = rankEvent rank') (h₃ : rankDevice rank = rankDevice rank') :
    rank = rank' := by
  have hinner : ofLex (ofLex rank).2 = ofLex (ofLex rank').2 := Prod.ext h₂ h₃
  exact congrArg toLex (Prod.ext h₁ (congrArg toLex hinner) : ofLex rank = ofLex rank')

/-- The sending installation gets no copy of its own. -/
def IsSending (env : Env) (p : Projections) (account : RostraId) (device : Bytes) : Prop :=
  account = env.selfId ∧ some device = p.idsDmInstallation.map (·.deviceId)

instance (env : Env) (p : Projections) (account : RostraId) (device : Bytes) :
    Decidable (IsSending env p account device) := inferInstanceAs (Decidable (_ ∧ _))

/-- The latest announcement of a device. -/
def latestAt (p : Projections) (account : RostraId) (device : Bytes) :
    Option (Timestamp × ShortEventId × Dm.EpochPublic) :=
  (p.idsDmDevices.get (account, device)).bind (·.latest)

/-- **The devices of an account whose latest announcement is eligible**, by rank. -/
def eligibleRanks (env : Env) (p : Projections) (now : ℕ) (account : RostraId) : Finset Rank :=
  (p.idsDmDevices.keys.filter fun key => key.1 = account ∧ ¬ IsSending env p account key.2 ∧
    (latestAt p account key.2).any fun l => l.2.2.eligible now l.1).image fun key =>
      (latestAt p account key.2).elim (toLex (0, toLex (0, key.2))) fun l =>
        toLex (l.1, toLex (l.2.1, key.2))

/-- What a permit needs to know of a destination. -/
def destinationOf (p : Projections) (account : RostraId) (rank : Rank) : RankedDestination :=
  let state := (p.idsDmDevices.get (account, rankDevice rank)).getD {}
  match state.latest with
  | some (timestamp, _, epoch) =>
    { rank := rank
      publicKey := epoch.publicKey
      sendUntil := epoch.sendUntil
      sendFrom := max epoch.sendFrom (timestamp - Dm.DM_FUTURE_ANNOUNCEMENT_SKEW)
      account := account
      state := state }
  | none => ⟨rank, [], 0, 0, account, state⟩

/-- **The direct definition**: recipient and sender have four slots each, and what one of them does
not use the other may. -/
def directDestinations (env : Env) (p : Projections) (recipient : RostraId) (now : ℕ) :
    Except DestinationError SendPermit :=
  let receiving := eligibleRanks env p now recipient
  let sending := if recipient = env.selfId then ∅ else eligibleRanks env p now env.selfId
  let r := min receiving.card (8 - min sending.card 4)
  if p.idsDmInstallation.any (·.retired) ∨ receiving = ∅ then .error .recipientUnavailable
  else
    permitOf env recipient (p.idsDmInstallation.map (·.deviceId))
      (((descending receiving).take r).map (destinationOf p recipient) ++
        ((descending sending).take (min sending.card (8 - r))).map (destinationOf p env.selfId))

omit [Primitives] in
theorem mem_eligibleRanks {env : Env} {p : Projections} {now : ℕ} {account : RostraId}
    {rank : Rank} :
    rank ∈ eligibleRanks env p now account ↔
      ¬ IsSending env p account (rankDevice rank) ∧
        ∃ epoch, latestAt p account (rankDevice rank) =
          some (rankTime rank, rankEvent rank, epoch) ∧ epoch.eligible now (rankTime rank) := by
  unfold eligibleRanks
  simp only [Finset.mem_image, Finset.mem_filter, Option.any_eq_true]
  constructor
  · rintro ⟨key, ⟨-, -, hsend, l, hl, hel⟩, rfl⟩
    rw [hl]
    exact ⟨hsend, l.2.2, hl, hel⟩
  · rintro ⟨hsend, epoch, hl, hel⟩
    obtain ⟨state, hg, -⟩ := Option.bind_eq_some_iff.mp hl
    refine ⟨(account, rankDevice rank), ⟨Table.mem_keys_of_get hg, rfl, hsend, _, hl, hel⟩, ?_⟩
    rw [hl]
    rfl

/-! ## 4. One row of the index

What the body of the inner loop does with a row: it takes it, unless the row is that of the sending installation. -/

/-- Every latest announcement passed the checks of the decoder. -/
def AllValid (p : Projections) : Prop :=
  ∀ account device ts ev epoch, latestAt p account device = some (ts, ev, epoch) →
    epoch.validate = true ∧ ts ≤ Dm.i64Max

theorem DevicesOf.valid {source : ShortEventId → Announced} {events : List ShortEventId}
    {p : Projections} (h : DevicesOf source events p) : AllValid p := by
  intro account device ts ev epoch hl
  obtain ⟨state, hg, hlatest⟩ := Option.bind_eq_some_iff.mp hl
  have hstate := h.states account device
  rw [hg, Option.getD_some] at hstate
  have hr : state.retired = false := by
    cases hr : state.retired with
    | false => rfl
    | true =>
      rw [hstate.gone hr] at hlatest
      cases hlatest
  have hof := hstate.latest hr
  rw [hlatest] at hof
  obtain ⟨-, -, rfl, hepoch, -⟩ := hof
  obtain ⟨bytes, hdecode⟩ := (source ev).accepted
  exact decode_epoch hdecode hepoch

/-- A valid epoch ends before the clock does, and has a usable key. -/
theorem validate_bounds {epoch : Dm.EpochPublic} (h : epoch.validate = true) :
    epoch.sendUntil < 2 ^ 64 ∧ Primitives.publicKeyValid epoch.publicKey = true := by
  simp only [Dm.EpochPublic.validate, Bool.and_eq_true, decide_eq_true_eq] at h
  have hmax : Dm.i64Max < 2 ^ 64 := by decide
  exact ⟨by omega, h.2⟩

omit [Primitives] in
/-- The indexed interval and the eligibility check are the same condition. -/
theorem eligible_iff {epoch : Dm.EpochPublic} {now ts : ℕ} (hts : ts ≤ Dm.i64Max) :
    epoch.eligible now ts = true ↔
      max epoch.sendFrom (ts - Dm.DM_FUTURE_ANNOUNCEMENT_SKEW) ≤ now ∧ now < epoch.sendUntil := by
  have hmax : Dm.i64Max < 2 ^ 64 := by decide
  simp only [Dm.EpochPublic.eligible, Bool.and_eq_true, decide_eq_true_eq]
  omega

/-- The ranks under one block. -/
def blockSet (p : Projections) (account : RostraId) (block : ℕ × ℕ) : Finset Rank :=
  (p.idsDmDevicesByInterval.filter fun key => key.1 = account ∧ key.2.1 = block).image fun key =>
    (toLex (key.2.2.1, toLex key.2.2.2) : Rank)

omit [Primitives] in
theorem blockRows_eq (p : Projections) (account : RostraId) (block : ℕ × ℕ) :
    blockRows p.idsDmDevicesByInterval account block = descending (blockSet p account block) := rfl

omit [Primitives] in
theorem mem_blockSet {p : Projections} (h : IndexExact p) {account : RostraId} {block : ℕ × ℕ}
    {rank : Rank} :
    rank ∈ blockSet p account block ↔
      ∃ epoch, latestAt p account (rankDevice rank) =
          some (rankTime rank, rankEvent rank, epoch) ∧
        block ∈ Dm.intervalPrefixes (max epoch.sendFrom
          (rankTime rank - Dm.DM_FUTURE_ANNOUNCEMENT_SKEW)) epoch.sendUntil := by
  unfold blockSet
  simp only [Finset.mem_image, Finset.mem_filter]
  constructor
  · rintro ⟨key, ⟨hkey, rfl, rfl⟩, rfl⟩
    obtain ⟨state, hg, hrow⟩ := (h key).mp hkey
    obtain ⟨ts, ev, epoch, hlatest, -, hblock, hrank⟩ := mem_dmIndexRows.mp hrow
    rw [hrank]
    rw [hrank] at hg
    refine ⟨epoch, ?_, hblock⟩
    exact Option.bind_eq_some_iff.mpr ⟨state, hg, hlatest⟩
  · rintro ⟨epoch, hl, hblock⟩
    obtain ⟨state, hg, hlatest⟩ := Option.bind_eq_some_iff.mp hl
    refine ⟨(account, block, (rankTime rank, rankEvent rank, rankDevice rank)), ⟨?_, rfl, rfl⟩, rfl⟩
    refine (h _).mpr ⟨state, hg, mem_dmIndexRows.mpr ?_⟩
    exact ⟨_, _, epoch, hlatest, rfl, hblock, rfl⟩

/-- **A row is accepted**, unless it is the sending installation's. The checks of the code cannot fail on a row of
an exact index. -/
theorem considerRow_eq {env : Env} {p : Projections} (hv : AllValid p) {now : ℕ}
    {account : RostraId} {rank : Rank} {epoch : Dm.EpochPublic}
    (hl : latestAt p account (rankDevice rank) = some (rankTime rank, rankEvent rank, epoch))
    (hel : epoch.eligible now (rankTime rank) = true) (selected : List RankedDestination) :
    considerRow env p now account (p.idsDmInstallation.map (·.deviceId)) selected rank =
      .ok (if IsSending env p account (rankDevice rank) then selected
        else ((selected ++ [destinationOf p account rank]).mergeSort
          fun a b => decide (b.rank ≤ a.rank)).take Dm.SLOT_COUNT) := by
  obtain ⟨state, hg, hlatest⟩ := Option.bind_eq_some_iff.mp hl
  have hkey := (validate_bounds (hv _ _ _ _ _ hl).1).2
  have hdest : destinationOf p account rank =
      { rank := rank, publicKey := epoch.publicKey, sendUntil := epoch.sendUntil,
        sendFrom := max epoch.sendFrom (rankTime rank - Dm.DM_FUTURE_ANNOUNCEMENT_SKEW),
        account := account, state := state } := by
    unfold destinationOf
    simp only [hg, Option.getD_some, hlatest]
  unfold considerRow
  by_cases hs : IsSending env p account (rankDevice rank)
  · rw [if_pos hs]
    exact if_pos hs
  · rw [if_neg hs, hdest]
    refine (if_neg hs).trans ?_
    have hmatch : ¬ ((rankTime rank, rankEvent rank) ≠
        ((ofLex rank).1, (ofLex (ofLex rank).2).1) ∨
        (!epoch.eligible now (rankTime rank)) = true) := by
      rw [hel]
      simp [rankTime, rankEvent]
    have hget : p.idsDmDevices.get (account, (ofLex (ofLex rank).2).2) = some state := hg
    simp only [hget, hlatest, hmatch, if_false, hkey, Bool.not_true, Bool.false_eq_true]
    rfl

/-! ## 5. All rows of the index

Both loops keep a list of at most eight ranks, sorted, and throw away what falls off its end. The lemmas say what
that list is after the rows that were read so far: the newest eight of them. -/

omit [Primitives] in
theorem destinationOf_rank (p : Projections) (account : RostraId) (rank : Rank) :
    (destinationOf p account rank).rank = rank := by
  unfold destinationOf
  dsimp only
  split
  · rfl
  · rfl

/-- The list the loop keeps, after the ranks `seen`. -/
def kept (p : Projections) (account : RostraId) (seen : Finset Rank) : List RankedDestination :=
  (descending (newest 8 seen)).map (destinationOf p account)

omit [Primitives] in
/-- **Push, sort, truncate.** The list is short, and the code sorts it anew for every row. -/
theorem kept_insert (p : Projections) (account : RostraId) {seen : Finset Rank} {rank : Rank}
    (hnew : rank ∉ seen) :
    ((kept p account seen ++ [destinationOf p account rank]).mergeSort
      fun a b => decide (b.rank ≤ a.rank)).take Dm.SLOT_COUNT =
        kept p account (insert rank seen) := by
  have hfresh : rank ∉ newest 8 seen := fun h => hnew (newest_subset 8 seen h)
  have hmap : kept p account seen ++ [destinationOf p account rank] =
      (descending (newest 8 seen) ++ [rank]).map (destinationOf p account) := by
    rw [List.map_append]
    rfl
  have hsort := List.map_mergeSort (r := fun a b : Rank => decide (b ≤ a))
    (s := fun a b : RankedDestination => decide (b.rank ≤ a.rank)) (f := destinationOf p account)
    (l := descending (newest 8 seen) ++ [rank])
    fun a _ b _ => by rw [destinationOf_rank, destinationOf_rank]
  rw [hmap, ← hsort, mergeSort_eq_descending (descending_perm_insert hfresh), ← List.map_take]
  show ((descending (insert rank (newest 8 seen))).take 8).map _ = _
  rw [take_descending, newest_insert_newest]
  rfl

/-- What is kept of the rows that were read. -/
def counted (env : Env) (p : Projections) (account : RostraId) (s : Finset Rank) : Finset Rank :=
  s.filter fun rank => ¬ IsSending env p account (rankDevice rank)

/-- A rank the loop can meet: the latest announcement of its device, and eligible. -/
def Current (p : Projections) (now : ℕ) (account : RostraId) (rank : Rank) : Prop :=
  ∃ epoch, latestAt p account (rankDevice rank) = some (rankTime rank, rankEvent rank, epoch) ∧
    epoch.eligible now (rankTime rank) = true

/-- **The inner loop**, over rows that were not met before. The induction is on the rows, and the set of those that
were read grows. -/
theorem considerRows_eq (env : Env) {p : Projections} (hv : AllValid p) {now : ℕ}
    {account : RostraId} :
    ∀ (rows : List Rank) (seen : Finset Rank), rows.Nodup → (∀ rank ∈ rows, rank ∉ seen) →
      (∀ rank ∈ rows, Current p now account rank) →
      rows.foldlM (considerRow env p now account (p.idsDmInstallation.map (·.deviceId)))
        (kept p account seen) =
          .ok (kept p account (seen ∪ counted env p account rows.toFinset))
  | [], seen, _, _, _ => by
    rw [List.toFinset_nil, counted, Finset.filter_empty, Finset.union_empty]
    rfl
  | rank :: rows, seen, hnodup, hfresh, hcur => by
    obtain ⟨hnotin, hnodup⟩ := List.nodup_cons.mp hnodup
    obtain ⟨epoch, hl, hel⟩ := hcur rank (by simp)
    rw [List.foldlM_cons, considerRow_eq hv hl hel]
    by_cases hs : IsSending env p account (rankDevice rank)
    · have hsame : counted env p account (rank :: rows).toFinset =
          counted env p account rows.toFinset := by
        rw [counted, List.toFinset_cons, Finset.filter_insert, if_neg (not_not.mpr hs)]
        rfl
      rw [if_pos hs, hsame]
      exact considerRows_eq env hv rows seen hnodup (fun r hr => hfresh r (by simp [hr]))
        fun r hr => hcur r (by simp [hr])
    · have hmore : seen ∪ counted env p account (rank :: rows).toFinset =
          insert rank seen ∪ counted env p account rows.toFinset := by
        rw [counted, List.toFinset_cons, Finset.filter_insert, if_pos hs, Finset.union_insert,
          Finset.insert_union]
        rfl
      rw [if_neg hs, kept_insert p account (hfresh rank (by simp)), hmore]
      refine considerRows_eq env hv rows (insert rank seen) hnodup (fun r hr => ?_)
        fun r hr => hcur r (by simp [hr])
      rw [Finset.mem_insert, not_or]
      exact ⟨fun heq => hnotin (heq ▸ hr), hfresh r (by simp [hr])⟩

/-- The rows under a block of the clock value are those of eligible devices. -/
theorem current_of_mem_blockSet {p : Projections} (hv : AllValid p) (hx : IndexExact p) {now : ℕ}
    (hnow : now < 2 ^ 64) {account : RostraId} {block : ℕ × ℕ}
    (hblock : block ∈ Dm.pointPrefixes now) {rank : Rank} (h : rank ∈ blockSet p account block) :
    Current p now account rank := by
  obtain ⟨epoch, hl, hmem⟩ := (mem_blockSet hx).mp h
  obtain ⟨hvalid, hts⟩ := hv _ _ _ _ _ hl
  refine ⟨epoch, hl, (eligible_iff hts).mpr ?_⟩
  exact (Dm.mem_cover_iff (validate_bounds hvalid).1 hnow).mp ⟨block, hblock, hmem⟩

/-- An eligible device has a row under one of them. -/
theorem Current.mem_blockSet {p : Projections} (hv : AllValid p) (hx : IndexExact p) {now : ℕ}
    (hnow : now < 2 ^ 64) {account : RostraId} {rank : Rank} (h : Current p now account rank) :
    ∃ block ∈ Dm.pointPrefixes now, rank ∈ blockSet p account block := by
  obtain ⟨epoch, hl, hel⟩ := h
  obtain ⟨hvalid, hts⟩ := hv _ _ _ _ _ hl
  obtain ⟨block, hblock, hmem⟩ :=
    (Dm.mem_cover_iff (validate_bounds hvalid).1 hnow).mpr ((eligible_iff hts).mp hel)
  exact ⟨block, hblock, (Rostra.Db.mem_blockSet hx).mpr ⟨epoch, hl, hmem⟩⟩

/-- No row is met under two of them. -/
theorem blockSet_unique {p : Projections} (hv : AllValid p) (hx : IndexExact p) {now : ℕ}
    (hnow : now < 2 ^ 64) {account : RostraId} {b b' : ℕ × ℕ} (hb : b ∈ Dm.pointPrefixes now)
    (hb' : b' ∈ Dm.pointPrefixes now) {rank : Rank} (h : rank ∈ blockSet p account b)
    (h' : rank ∈ blockSet p account b') : b = b' := by
  obtain ⟨epoch, hl, hmem⟩ := (mem_blockSet hx).mp h
  obtain ⟨epoch', hl', hmem'⟩ := (mem_blockSet hx).mp h'
  obtain rfl : epoch = epoch' := by
    rw [hl] at hl'
    simpa using hl'
  exact Dm.cover_unique (validate_bounds (hv _ _ _ _ _ hl).1).1 hnow hb hb' hmem hmem'

/-- What the loop has read of the given blocks: the newest nine rows of each. -/
def readOf (env : Env) (p : Projections) (account : RostraId) (blocks : List (ℕ × ℕ)) :
    Finset Rank :=
  blocks.toFinset.biUnion fun block => counted env p account (newest 9 (blockSet p account block))

omit [Primitives] in
theorem mem_readOf {env : Env} {p : Projections} {account : RostraId} {blocks : List (ℕ × ℕ)}
    {rank : Rank} :
    rank ∈ readOf env p account blocks ↔
      ∃ block ∈ blocks, rank ∈ newest 9 (blockSet p account block) ∧
        ¬ IsSending env p account (rankDevice rank) := by
  simp only [readOf, counted, Finset.mem_biUnion, List.mem_toFinset, Finset.mem_filter]

/-- **The outer loop**: every row is met once, because no two blocks that contain the clock value are blocks of the
same interval. -/
theorem candidatesLoop_eq (env : Env) {p : Projections} (hv : AllValid p) (hx : IndexExact p)
    {now : ℕ} (hnow : now < 2 ^ 64) (account : RostraId) :
    ∀ (blocks : List (ℕ × ℕ)) (seen : Finset Rank), blocks.Nodup →
      (∀ b ∈ blocks, b ∈ Dm.pointPrefixes now) →
      (∀ b ∈ blocks, ∀ rank ∈ blockSet p account b, rank ∉ seen) →
      blocks.foldlM (fun selected block =>
        ((blockRows p.idsDmDevicesByInterval account block).take (Dm.SLOT_COUNT + 1)).foldlM
          (considerRow env p now account (p.idsDmInstallation.map (·.deviceId))) selected)
        (kept p account seen) = .ok (kept p account (seen ∪ readOf env p account blocks))
  | [], seen, _, _, _ => by
    rw [readOf, List.toFinset_nil, Finset.biUnion_empty, Finset.union_empty]
    rfl
  | block :: blocks, seen, hnodup, hpoint, hfresh => by
    obtain ⟨hnotin, hnodup⟩ := List.nodup_cons.mp hnodup
    have hblock := hpoint block (by simp)
    have hrows : (blockRows p.idsDmDevicesByInterval account block).take (Dm.SLOT_COUNT + 1) =
        descending (newest 9 (blockSet p account block)) := by
      rw [blockRows_eq]
      exact take_descending 9 _
    have hinner := considerRows_eq env hv (descending (newest 9 (blockSet p account block)))
      seen (nodup_descending _)
      (fun rank hr => hfresh block (by simp) rank (newest_subset _ _ (mem_descending.mp hr)))
      fun rank hr => current_of_mem_blockSet hv hx hnow hblock
        (newest_subset _ _ (mem_descending.mp hr))
    have hset : (descending (newest 9 (blockSet p account block))).toFinset =
        newest 9 (blockSet p account block) := by
      ext rank
      simp
    rw [hset] at hinner
    have hmore : seen ∪ readOf env p account (block :: blocks) =
        seen ∪ counted env p account (newest 9 (blockSet p account block)) ∪
          readOf env p account blocks := by
      rw [readOf, List.toFinset_cons, Finset.biUnion_insert, Finset.union_assoc]
      rfl
    rw [List.foldlM_cons, hrows, hinner, hmore]
    refine candidatesLoop_eq env hv hx hnow account blocks _ hnodup
      (fun b hb => hpoint b (by simp [hb])) ?_
    intro b hb rank hrank
    rw [Finset.mem_union, not_or]
    refine ⟨hfresh b (by simp [hb]) rank hrank, fun hmem => ?_⟩
    have hother := newest_subset _ _ (Finset.mem_filter.mp hmem).1
    have heq := blockSet_unique hv hx hnow (hpoint b (by simp [hb])) hblock hrank hother
    exact hnotin (heq ▸ hb)

/-- **Nine rows of each block are enough.** A device among the newest eight of the account is among the newest nine
of its block. -/
theorem newest_readOf {env : Env} {p : Projections} (hv : AllValid p) (hx : IndexExact p) {now : ℕ}
    (hnow : now < 2 ^ 64) (account : RostraId) {blocks : List (ℕ × ℕ)}
    (hblocks : blocks = Dm.pointPrefixes now) :
    newest 8 (readOf env p account blocks) = newest 8 (eligibleRanks env p now account) := by
  have hmem : ∀ rank, rank ∈ eligibleRanks env p now account ↔
      ¬ IsSending env p account (rankDevice rank) ∧ Current p now account rank := by
    intro rank
    rw [mem_eligibleRanks]
    rfl
  refine newest_eq_of_subset ?_ ?_
  · intro rank hr
    obtain ⟨block, hblock, hr, hs⟩ := mem_readOf.mp hr
    rw [hblocks] at hblock
    exact (hmem rank).mpr ⟨hs, current_of_mem_blockSet hv hx hnow hblock (newest_subset _ _ hr)⟩
  · intro rank hr
    obtain ⟨hs, hcur⟩ := (hmem rank).mp (newest_subset _ _ hr)
    obtain ⟨block, hblock, hin⟩ := hcur.mem_blockSet hv hx hnow
    -- at most one row of a block belongs to the sending installation
    have hone : ((blockSet p account block).filter fun r =>
        ¬ ¬ IsSending env p account (rankDevice r)).card ≤ 1 := by
      refine Finset.card_le_one.mpr fun a ha b hb => ?_
      obtain ⟨ha, hsa⟩ := Finset.mem_filter.mp ha
      obtain ⟨hb, hsb⟩ := Finset.mem_filter.mp hb
      have hdevice : rankDevice a = rankDevice b :=
        Option.some.inj ((not_not.mp hsa).2.trans (not_not.mp hsb).2.symm)
      obtain ⟨epoch, hla, -⟩ := (mem_blockSet hx).mp ha
      obtain ⟨epoch', hlb, -⟩ := (mem_blockSet hx).mp hb
      rw [hdevice, hlb] at hla
      simp only [Option.some.injEq, Prod.mk.injEq] at hla
      exact rank_ext hla.1.symm hla.2.1.symm hdevice
    have hnear : rank ∈ newest 8 ((blockSet p account block).filter fun r =>
        ¬ IsSending env p account (rankDevice r)) := by
      refine mem_newest_of_subset ?_ hr (Finset.mem_filter.mpr ⟨hin, hs⟩)
      intro r hr
      obtain ⟨hr, hs⟩ := Finset.mem_filter.mp hr
      exact (hmem r).mpr ⟨hs, current_of_mem_blockSet hv hx hnow hblock hr⟩
    have hread := Finset.mem_filter.mp (newest_filter_subset hone hnear)
    rw [← hblocks] at hblock
    exact mem_readOf.mpr ⟨block, hblock, hread⟩

/-- **The candidates of an account are its newest eight eligible devices**, whatever the index does to find them.
-/
theorem candidates_eq {env : Env} {p : Projections} (hv : AllValid p) (hx : IndexExact p) {now : ℕ}
    (hnow : now < 2 ^ 64) (account : RostraId) :
    candidates env p now (p.idsDmInstallation.map (·.deviceId)) account =
      .ok (((descending (eligibleRanks env p now account)).take 8).map
        (destinationOf p account)) := by
  have hloop := candidatesLoop_eq env hv hx hnow account
    (Dm.pointPrefixes now) ∅ (Dm.pointPrefixes_nodup now) (fun _ hb => hb) fun _ _ _ _ => by simp
  have hempty : kept p account ∅ = [] := by
    simp [kept, newest]
  rw [hempty, Finset.empty_union] at hloop
  unfold candidates
  rw [hloop, kept, newest_readOf hv hx hnow account rfl, take_descending]

/-! ## 6. The permit

From two lists of candidates to eight destinations. Each side has four slots, and those it does not use may be used
by the other. -/

omit [Primitives] in
/-- The slots the code counts out are those of the definition. -/
theorem slots_eq (r s : ℕ) :
    min (min 8 r) 4 + min (min 8 r - 4) (4 - min 8 s) = min r (8 - min s 4) := by
  omega

omit [Primitives] in
/-- Eight devices are read, and at most eight are used. -/
theorem take_slots (ranks : Finset Rank) (dest : Rank → RankedDestination) {n : ℕ} (hn : n ≤ 8) :
    (((descending ranks).take 8).map dest).take n = ((descending ranks).take n).map dest := by
  rw [← List.map_take, List.take_take, Nat.min_eq_left hn]

/-- **The code computes the direct definition**, with its error when there is nobody to send to. -/
theorem dmDestinations_eq (env : Env) {p : Projections} (hv : AllValid p) (hx : IndexExact p)
    {now : ℕ} (hnow : now < 2 ^ 64) (recipient : RostraId) :
    dmDestinations env p recipient now = directDestinations env p recipient now := by
  have hcand : ∀ account, candidates env p now (p.idsDmInstallation.map (·.deviceId)) account =
      .ok (((descending (eligibleRanks env p now account)).take 8).map (destinationOf p account)) :=
    candidates_eq hv hx hnow
  have hsenders : senderCandidates env p now (p.idsDmInstallation.map (·.deviceId)) recipient =
      .ok (((descending (if recipient = env.selfId then ∅
        else eligibleRanks env p now env.selfId)).take 8).map (destinationOf p env.selfId)) := by
    unfold senderCandidates
    by_cases hself : recipient = env.selfId
    · rw [if_pos hself, if_pos hself, descending_empty]
      rfl
    · rw [if_neg hself, if_neg hself, hcand]
  unfold dmDestinations directDestinations
  cases hr : p.idsDmInstallation.any (·.retired) with
  | true =>
    simp
    rfl
  | false =>
    generalize hS : (if recipient = env.selfId then (∅ : Finset Rank)
      else eligibleRanks env p now env.selfId) = S at hsenders ⊢
    simp only [Bool.false_eq_true, if_false, hcand, hsenders, false_or, bind, Except.bind]
    generalize eligibleRanks env p now recipient = R
    by_cases hR : R = ∅
    · subst hR
      simp
      rfl
    · have hcard : 0 < R.card := Finset.card_pos.mpr (Finset.nonempty_iff_ne_empty.mpr hR)
      have hnonempty :
          (((descending R).take 8).map (destinationOf p recipient)).isEmpty = false := by
        rw [List.isEmpty_eq_false_iff, ← List.length_pos_iff, List.length_map, List.length_take,
          length_descending]
        omega
      simp only [hnonempty, hR, Bool.false_eq_true, if_false]
      simp only [List.length_map, List.length_take, length_descending, slots_eq]
      have hslots : min (min 8 S.card) (Dm.SLOT_COUNT - min R.card (8 - min S.card 4)) =
          min S.card (8 - min R.card (8 - min S.card 4)) := by
        show min (min 8 S.card) (8 - _) = _
        omega
      rw [hslots, take_slots R _ (by omega), take_slots S _ (by omega)]

/-- A destination that was selected is usable now. -/
theorem destinationOf_bounds {env : Env} {p : Projections} (hv : AllValid p) {now : ℕ}
    {account : RostraId} {rank : Rank} (h : rank ∈ eligibleRanks env p now account) :
    (destinationOf p account rank).sendFrom ≤ now ∧
      now < (destinationOf p account rank).sendUntil := by
  obtain ⟨-, epoch, hl, hel⟩ := mem_eligibleRanks.mp h
  obtain ⟨state, hg, hlatest⟩ := Option.bind_eq_some_iff.mp hl
  have hin := (eligible_iff (hv _ _ _ _ _ hl).2).mp hel
  unfold destinationOf
  simp only [hg, Option.getD_some, hlatest]
  exact hin

omit [Primitives] in
/-- The permit of a selection of usable destinations. -/
theorem permitOf_bounds {env : Env} {recipient : RostraId} {sendingDevice : Option Bytes}
    {selected : List RankedDestination} {now : ℕ} (hne : selected ≠ [])
    (h : ∀ d ∈ selected, d.sendFrom ≤ now ∧ now < d.sendUntil) :
    ∃ permit, permitOf env recipient sendingDevice selected = .ok permit ∧
      permit.sendFrom ≤ now ∧ now < permit.sendUntil := by
  unfold permitOf
  cases hmin : (selected.map (·.sendUntil)).min? with
  | none => simp [hne] at hmin
  | some sendUntil =>
    cases hmax : (selected.map (·.sendFrom)).max? with
    | none => simp [hne] at hmax
    | some sendFrom =>
      obtain ⟨d, hd, rfl⟩ := List.mem_map.mp (List.min?_mem hmin)
      obtain ⟨d', hd', rfl⟩ := List.mem_map.mp (List.max?_mem hmax)
      exact ⟨_, rfl, (h d' hd').1, (h d hd).2⟩

/-- **It fails exactly without a destination or a live installation.** -/
theorem directDestinations_total {env : Env} {p : Projections} (hv : AllValid p) {now : ℕ}
    {recipient : RostraId}
    (h : ¬ (p.idsDmInstallation.any (·.retired) = true ∨ eligibleRanks env p now recipient = ∅)) :
    ∃ permit, directDestinations env p recipient now = .ok permit ∧ permit.sendFrom ≤ now ∧
      now < permit.sendUntil := by
  unfold directDestinations
  rw [if_neg h]
  refine permitOf_bounds ?_ ?_
  · have hpos : 0 < (eligibleRanks env p now recipient).card :=
      Finset.card_pos.mpr (Finset.nonempty_iff_ne_empty.mpr fun he => h (.inr he))
    intro hnil
    have hlen := congrArg List.length hnil
    simp only [List.length_append, List.length_map, List.length_take, length_descending,
      List.length_nil] at hlen
    omega
  · intro d hd
    rcases List.mem_append.mp hd with hd | hd
    · obtain ⟨rank, hrank, rfl⟩ := List.mem_map.mp hd
      exact destinationOf_bounds hv (mem_descending.mp (List.mem_of_mem_take hrank))
    · obtain ⟨rank, hrank, rfl⟩ := List.mem_map.mp hd
      have hrank := mem_descending.mp (List.mem_of_mem_take hrank)
      by_cases hself : recipient = env.selfId
      · simp [hself] at hrank
      · rw [if_neg hself] at hrank
        exact destinationOf_bounds hv hrank

/-- The device rows are a function of the set of announcements. -/
theorem devices_order_free {source : ShortEventId → Announced} {events events' : List ShortEventId}
    {p p' : Projections} (h : DevicesOf source events p) (h' : DevicesOf source events' p')
    (hset : ∀ e, e ∈ events' ↔ e ∈ events) : p'.idsDmDevices = p.idsDmDevices := by
  refine Table.ext fun ⟨account, device⟩ => ?_
  have hstate := ((h'.states account device).congr fun e => (hset e).symm).unique
    (h.states account device)
  have hrows : (p'.idsDmDevices.get (account, device)).isSome ↔
      (p.idsDmDevices.get (account, device)).isSome := by
    rw [h.rows, h'.rows]
    simp only [hset]
  cases hg : p.idsDmDevices.get (account, device) with
  | none =>
    cases hg' : p'.idsDmDevices.get (account, device) with
    | none => rfl
    | some state => simp [hg, hg'] at hrows
  | some state =>
    cases hg' : p'.idsDmDevices.get (account, device) with
    | none => simp [hg, hg'] at hrows
    | some state' =>
      rw [hg, hg'] at hstate
      exact congrArg some hstate

/-! ## 7. The result

The sections before are about one state; here they are put together for every run. -/

/-- **Destination selection equals the direct definition.**  After any run of announcements, in any
order and with repetitions: the state of a device is a function of the set of its announcements, and
so are the device rows; the indexed selection returns what the direct definition returns, for every
clock value, recipient and local installation; it fails exactly if the installation is retired or
the recipient has no eligible device; and a permit is usable at the time it is given. -/
theorem dmDestinations_direct (env : Env) (source : ShortEventId → Announced)
    (ops : List DeviceOp) (installation : Option Installation) (recipient : RostraId)
    (now : UInt64) :
    let p := { devicesReached env source ops with idsDmInstallation := installation }
    (∀ account device, StateOf source (announcedBy ops) account device
      ((p.idsDmDevices.get (account, device)).getD {})) ∧
    (∀ ops', (∀ e, e ∈ announcedBy ops' ↔ e ∈ announcedBy ops) →
      (devicesReached env source ops').idsDmDevices = p.idsDmDevices) ∧
    dmDestinations env p recipient now.toNat = directDestinations env p recipient now.toNat ∧
    (p.idsDmInstallation.any (·.retired) = true ∨ eligibleRanks env p now.toNat recipient = ∅ →
      dmDestinations env p recipient now.toNat = .error .recipientUnavailable) ∧
    (¬ (p.idsDmInstallation.any (·.retired) = true ∨
        eligibleRanks env p now.toNat recipient = ∅) →
      ∃ permit, dmDestinations env p recipient now.toNat = .ok permit ∧
        permit.sendFrom ≤ now.toNat ∧ now.toNat < permit.sendUntil) := by
  intro p
  have hreached := devicesReached_of env source ops
  have hp : DevicesOf source (announcedBy ops) p := ⟨hreached.rows, hreached.states, hreached.index⟩
  have hnow : now.toNat < 2 ^ 64 := now.toNat_lt
  have heq := dmDestinations_eq env hp.valid hp.index hnow recipient
  refine ⟨hp.states, fun ops' hset => ?_, heq, fun hfail => ?_, fun hok => ?_⟩
  · exact devices_order_free hp (devicesReached_of env source ops') hset
  · rw [heq, directDestinations, if_pos hfail]
  · rw [heq]
    exact directDestinations_total hp.valid hok

end Rostra.Db
