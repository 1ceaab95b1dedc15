/-
# The content store

Bytes are stored once per hash and shared by every event that names it.  Two paths write: a payload
that was compared with its header, and the insertion of a header of length `0`, which stores the
empty string under WHATEVER hash the header names.  Neither replaces a row that is there.

* `StoreSound` is what the two paths keep in any case: a row is lawful, or it is an empty row that
  such a header left behind; and processed content finds its bytes, as long as no empty header of
  the run names the hash of a payload of the run (`Unambiguous`).
* With `EmptyHashed` headers only, the hash law is what one expects.  A single header that is not
  breaks it, and the payload whose hash it took can then never be read.

The code never replaces a stored row, and never compares one with what it would have written. That is right if
equal hashes mean equal bytes, which is the law; the path that may break it is the one on which there are no bytes
to compare.
-/
import Rostra.Proofs.Books
import Rostra.Proofs.Progress

namespace Rostra.Db

open Rostra Outcome

section Store

variable [Primitives]

/-! ## 1. What is assumed of the hash and of the headers

The assumption about the hash is a property of `blake3`; the ones about headers are conditions on what is
delivered, and the results say which of them they need. -/

/-- `blake3` has no collisions, and nothing hashes to the reserved zero. -/
structure HashSound : Prop where
  injective : Function.Injective blake3
  nonzero : ∀ b, blake3 b ≠ ContentHash.ZERO

/-- A header without content names the hash of the empty string, or none. -/
def EmptyHashed (v : VerifiedEvent) : Prop :=
  v.event.contentLen = 0 →
    v.event.contentHash = blake3 [] ∨ v.event.contentHash = ContentHash.ZERO

/-- No empty header of `D` names the hash of a payload of `D`. -/
def Unambiguous (D : Set VerifiedEvent) : Prop :=
  ∀ v ∈ D, v.event.contentLen = 0 → ∀ c : VerifiedEventContent, c.event ∈ D →
    0 < c.event.event.contentLen → c.event.event.contentHash ≠ v.event.contentHash

theorem unambiguous_of_emptyHashed (hh : HashSound) {D : Set VerifiedEvent}
    (h : ∀ v ∈ D, EmptyHashed v) : Unambiguous D := by
  intro v hv hlen c _ hpos heq
  obtain ⟨b, hb⟩ := c.content_isSome hpos
  obtain ⟨hblen, hbhash⟩ := c.length_and_hash hb
  rw [heq] at hbhash
  rcases h v hv hlen with hv' | hv'
  · have hnil : b = [] := hh.injective (hbhash.trans hv')
    rw [hnil] at hblen
    simp at hblen
    omega
  · exact hh.nonzero b (hbhash.trans hv')

/-! ## 2. The invariant

Several strengths of it, as different results need them. `StoreLaw` holds of whatever is delivered; `Measured` asks
that headers which share a hash declare one length; `StoreSound` asks that they are unambiguous. -/

/-- **The invariant**: rows are lawful or left by an empty header, and processed content is readable. -/
structure StoreSound (D : Set VerifiedEvent) (t : EventTables) : Prop where
  law : ∀ h b, t.contentStore.get h = some b → blake3 b = h ∨
    (b = [] ∧ ∃ v ∈ D, v.event.contentLen = 0 ∧ v.event.contentHash = h)
  readable : ∀ id e, t.events.get id = some e → contentClass t id = .current → 0 < e.contentLen →
    ∃ b, t.contentStore.get e.contentHash = some b ∧ b.length = e.contentLen ∧
      blake3 b = e.contentHash

theorem storeSound_empty (D : Set VerifiedEvent) : StoreSound D {} := by
  refine ⟨fun h b hb => ?_, fun id e he => ?_⟩
  · simp at hb
  · simp at he

/-- Nothing that was readable is lost when no row is. -/
theorem StoreSound.mono {D : Set VerifiedEvent} {t t' : EventTables} (h : StoreSound D t)
    (hev : t'.events = t.events) (hst : t'.contentStore = t.contentStore)
    (hcls : ∀ id, contentClass t' id = .current → contentClass t id = .current) :
    StoreSound D t' := by
  refine ⟨fun k b hb => ?_, fun id e he hc => ?_⟩
  · rw [hst] at hb
    exact h.law k b hb
  · rw [hev] at he
    rw [hst]
    exact h.readable id e he (hcls id hc)

theorem PruneEffect.storeSound {D : Set VerifiedEvent} {t t' : EventTables} {id : ShortEventId}
    (h : PruneEffect t id t') (hs : StoreSound D t) : StoreSound D t' := by
  cases h with
  | kept _ h =>
    rw [h]
    exact hs
  | pruned _ rc u h =>
    rw [h]
    refine hs.mono rfl rfl fun id' hc => ?_
    by_cases hid : id' = id
    · rw [hid, contentClass, Table.get_insert_self] at hc
      cases hc
    · rwa [contentClass, Table.get_insert_of_ne _ _ hid] at hc

/-- An insertion leaves at most an empty row behind, and makes no nonempty content current. -/
theorem InsertEffect.storeSound {D : Set VerifiedEvent} {t : EventTables} {v : VerifiedEvent}
    {r : EventTables × InsertEventOutcome} (h : InsertEffect t v r) (hs : StoreSound D t)
    (hv : v ∈ D) : StoreSound D r.1 := by
  cases h with
  | present e he hreg ht ho =>
    rw [ht]
    exact hs.mono rfl rfl fun _ h => h
  | new hnew hreg wm isD dp rev mp h ho =>
    refine ⟨fun k b hb => ?_, fun id e he hc hpos => ?_⟩
    · rw [h.store] at hb
      split at hb
      · next hc =>
        rw [Table.get_insert] at hb
        split at hb
        · next hk =>
          cases hb
          exact .inr ⟨rfl, v, hv, hc.2.1, hk.symm⟩
        · exact hs.law k b hb
      · exact hs.law k b hb
    · rw [h.events] at he
      by_cases hid : id = v.id
      · -- the new event itself starts deleted or missing
        subst hid
        rw [Table.get_insert_self] at he
        cases he
        have hself := h.state_self
        rw [contentClass] at hc
        split at hself
        · obtain ⟨d, hd⟩ := hself
          rw [hd] at hc
          cases hc
        · rw [hself] at hc
          cases hc
      · rw [Table.get_insert_of_ne _ _ hid] at he
        have hdp : dp ≠ some id := by
          intro hdp
          obtain ⟨d, hd⟩ := h.state_parent id hdp
          rw [contentClass, hd] at hc
          cases hc
        rw [contentClass, h.state_other id hid hdp] at hc
        obtain ⟨b, hb, hlen, hhash⟩ := hs.readable id e he hc hpos
        exact ⟨b, h.store_kept hb, hlen, hhash⟩

/-- The law that needs no assumption: a row is lawful, or left by an empty header. -/
def StoreLaw (D : Set VerifiedEvent) (t : EventTables) : Prop :=
  ∀ h b, t.contentStore.get h = some b → blake3 b = h ∨
    (b = [] ∧ ∃ v ∈ D, v.event.contentLen = 0 ∧ v.event.contentHash = h)

theorem storeLaw_empty (D : Set VerifiedEvent) : StoreLaw D {} := (storeSound_empty D).law

/-- Rows that are new have to be lawful. -/
theorem StoreLaw.mono {D : Set VerifiedEvent} {t t' : EventTables} (h : StoreLaw D t)
    (hst : ∀ k b, t'.contentStore.get k = some b → t.contentStore.get k = some b ∨
      blake3 b = k ∨ (b = [] ∧ ∃ v ∈ D, v.event.contentLen = 0 ∧ v.event.contentHash = k)) :
    StoreLaw D t' := by
  intro k b hb
  rcases hst k b hb with hb' | hb'
  · exact h k b hb'
  · exact hb'

theorem InsertEffect.storeLaw {D : Set VerifiedEvent} {t : EventTables} {v : VerifiedEvent}
    {r : EventTables × InsertEventOutcome} (h : InsertEffect t v r) (hs : StoreLaw D t)
    (hv : v ∈ D) : StoreLaw D r.1 := by
  cases h with
  | present e he hreg ht ho =>
    rw [ht]
    exact hs
  | new hnew hreg wm isD dp rev mp h ho =>
    refine hs.mono fun k b hb => ?_
    rw [h.store] at hb
    split at hb
    · next hc =>
      rw [Table.get_insert] at hb
      split at hb
      · next hk =>
        cases hb
        exact .inr (.inr ⟨rfl, v, hv, hc.2.1, hk.symm⟩)
      · exact .inl hb
    · exact .inl hb

theorem PruneEffect.storeLaw {D : Set VerifiedEvent} {t t' : EventTables} {id : ShortEventId}
    (h : PruneEffect t id t') (hs : StoreLaw D t) : StoreLaw D t' := by
  cases h with
  | kept _ h =>
    rw [h]
    exact hs
  | pruned _ rc u h =>
    rw [h]
    exact hs

theorem storeLaw_keeps (D : Set VerifiedEvent) :
    Keeps D Anything AnythingMid (StoreLaw D) (fun _ => StoreLaw D) (fun _ => True) where
  insert t v hv _ _ h :=
    (insertEventTx_effect t v).mono (fun _ hr => hr.storeLaw h hv) fun _ h => h
  settle t v _ _ _ h :=
    (pruneEventContentTx_effect t v.id v.event).mono (fun _ hr => hr.storeLaw h) fun _ h => h
  schedule t v _ _ _ _ h := by
    obtain ⟨q, hq⟩ := ensureMissingScheduledTx_effect t v.id
    rw [hq]
    exact h
  prune t id e _ _ _ h :=
    (pruneEventContentTx_effect t id e).mono (fun _ hr => hr.storeLaw h) fun _ h => h
  store t c b _ _ hb _ _ h := by
    refine (storeContentTx_effect _ _ b).mono (fun t' ht' => ?_) fun _ h => h
    obtain ⟨u, rfl⟩ := ht'
    refine h.mono fun k b' hb' => ?_
    dsimp only at hb'
    split at hb'
    · rw [Table.get_insert] at hb'
      split at hb'
      · next hk =>
        cases hb'
        rw [hk]
        exact .inr (.inl (c.length_and_hash hb).2)
      · exact .inl hb'
    · exact .inl hb'
  reject t c _ _ _ _ h := by
    refine (rejectContentTx_effect _ _).mono (fun t' ht' => ?_) fun _ h => h
    obtain ⟨rc, u, rfl⟩ := ht'
    exact h
  collect t k _ _ _ h := by
    refine h.mono fun k' b hb => ?_
    rw [Table.get_remove] at hb
    split at hb
    · cases hb
    · exact .inl hb
  defer t id _ _ h := by
    obtain ⟨q, hq⟩ := ensureMissingScheduledTx_effect t id
    rw [hq]
    exact h
  reschedule t id o n u _ _ h := by
    have hr := rescheduleTx_rescheduled t id o n u
    exact h.mono fun k b hb => .inl (hr.store ▸ hb)
  peek t _ _ h := by
    obtain ⟨q, hq⟩ := peekLoop_effect (t.eventsContentMissing.card + 1) t
    show StoreLaw D (peekLoop _ _).1
    rw [hq]
    exact h
  other _ _ := trivial

/-- Headers of `D` that name one hash declare one length. -/
def SameLengths (D : Set VerifiedEvent) : Prop :=
  ∀ v ∈ D, ∀ w ∈ D, v.event.contentHash = w.event.contentHash →
    v.event.contentLen = w.event.contentLen

theorem SameLengths.unambiguous {D : Set VerifiedEvent} (h : SameLengths D) : Unambiguous D := by
  intro v hv hv0 c hc hpos heq
  have := h _ hc _ hv heq
  omega

/-- Stored bytes have the length that some header declares for their hash. -/
def StoreOwned (D : Set VerifiedEvent) (t : EventTables) : Prop :=
  ∀ k b, t.contentStore.get k = some b →
    ∃ v ∈ D, v.event.contentHash = k ∧ v.event.contentLen = b.length

theorem storeOwned_empty (D : Set VerifiedEvent) : StoreOwned D {} := by
  intro k b hb
  simp at hb

/-- **Processed content is there, in the length its header declares.**  This needs no assumption about
hashes, only that headers which share one agree about the length. -/
structure Measured (D : Set VerifiedEvent) (t : EventTables) : Prop where
  owned : StoreOwned D t
  held : ∀ id e, t.events.get id = some e → contentClass t id = .current →
    (t.contentStore.get e.contentHash).isSome

theorem measured_empty (D : Set VerifiedEvent) : Measured D {} :=
  ⟨storeOwned_empty D, fun id e he => by simp at he⟩

/-- Rows that are new have an owner, and what is newly current is held. -/
theorem Measured.mono {D : Set VerifiedEvent} {t t' : EventTables} (h : Measured D t)
    (hstore : ∀ k b, t'.contentStore.get k = some b → t.contentStore.get k = some b ∨
      ∃ v ∈ D, v.event.contentHash = k ∧ v.event.contentLen = b.length)
    (hheld : ∀ id e, t'.events.get id = some e → contentClass t' id = .current →
      (t'.contentStore.get e.contentHash).isSome ∨ (t.events.get id = some e ∧
        contentClass t id = .current ∧
          t'.contentStore.get e.contentHash = t.contentStore.get e.contentHash)) :
    Measured D t' := by
  refine ⟨fun k b hb => ?_, fun id e he hc => ?_⟩
  · rcases hstore k b hb with hb' | hb'
    · exact h.owned k b hb'
    · exact hb'
  · rcases hheld id e he hc with hs | ⟨he', hc', hs⟩
    · exact hs
    · rw [hs]
      exact h.held id e he' hc'

theorem Measured.congr {D : Set VerifiedEvent} {t t' : EventTables} (h : Measured D t)
    (hev : t'.events = t.events) (hst : t'.contentStore = t.contentStore)
    (hcls : ∀ id, contentClass t' id = .current → contentClass t id = .current) :
    Measured D t' := by
  refine h.mono (fun k b hb => .inl (hst ▸ hb)) fun id e he hc => .inr ⟨hev ▸ he, hcls id hc, ?_⟩
  rw [hst]

/-- The bytes of processed content have the declared length. -/
theorem Measured.length {D : Set VerifiedEvent} {t : EventTables} (h : Measured D t)
    (hlen : SameLengths D) (hk : KeyedBy D t) {id : ShortEventId} {e : Event}
    (he : t.events.get id = some e) (hc : contentClass t id = .current) :
    ∃ b, t.contentStore.get e.contentHash = some b ∧ b.length = e.contentLen := by
  obtain ⟨b, hb⟩ := Option.isSome_iff_exists.mp (h.held id e he hc)
  obtain ⟨v, hv, hhash, hvlen⟩ := h.owned _ _ hb
  refine ⟨b, hb, ?_⟩
  rw [← hvlen]
  exact hlen v hv _ (hk.mem he) hhash

theorem InsertEffect.measured {D : Set VerifiedEvent} {t : EventTables} {v : VerifiedEvent}
    {r : EventTables × InsertEventOutcome} (h : InsertEffect t v r) (hs : Measured D t)
    (hv : v ∈ D) : Measured D r.1 := by
  cases h with
  | present e he hreg ht ho =>
    rw [ht]
    exact hs.congr rfl rfl fun _ h => h
  | new hnew hreg wm isD dp rev mp h ho =>
    refine hs.mono (fun k b hb => ?_) fun id e he hc => .inl ?_
    · rw [h.store] at hb
      split at hb
      · next hc =>
        rw [Table.get_insert] at hb
        split at hb
        · next hk =>
          cases hb
          exact .inr ⟨v, hv, hk.symm, hc.2.1⟩
        · exact .inl hb
      · exact .inl hb
    · rw [h.events] at he
      by_cases hid : id = v.id
      · -- the new event is processed at once only when it is empty, and then its row is written
        subst hid
        rw [Table.get_insert_self] at he
        cases he
        have hself := h.state_self
        rw [contentClass] at hc
        rw [h.store]
        split at hself
        · obtain ⟨d, hd⟩ := hself
          rw [hd] at hc
          cases hc
        next hdel =>
        split at hself
        · rw [hself] at hc
          cases hc
        next hempty =>
        split
        · simp
        · next hno =>
          have hsome : t.contentStore.get v.event.contentHash ≠ none := fun hnone =>
            hno ⟨by simpa using hdel, by omega, hnone⟩
          exact Option.isSome_iff_ne_none.mpr hsome
      · rw [Table.get_insert_of_ne _ _ hid] at he
        have hdp : dp ≠ some id := by
          intro hdp
          obtain ⟨d, hd⟩ := h.state_parent id hdp
          rw [contentClass, hd] at hc
          cases hc
        rw [contentClass, h.state_other id hid hdp] at hc
        obtain ⟨b, hb⟩ := Option.isSome_iff_exists.mp (hs.held id e he hc)
        rw [h.store_kept hb]
        rfl

theorem PruneEffect.measured {D : Set VerifiedEvent} {t t' : EventTables} {id : ShortEventId}
    (h : PruneEffect t id t') (hs : Measured D t) : Measured D t' := by
  cases h with
  | kept _ h =>
    rw [h]
    exact hs
  | pruned _ rc u h =>
    rw [h]
    refine hs.congr rfl rfl fun id' hc => ?_
    by_cases hid : id' = id
    · rw [hid, contentClass, Table.get_insert_self] at hc
      cases hc
    · rwa [contentClass, Table.get_insert_of_ne _ _ hid] at hc

/-- The store once a payload was written, unless its key was taken. -/
abbrev storeWith (t : EventTables) (c : VerifiedEventContent) (b : Bytes) : Table ContentHash Bytes :=
  if (t.contentStore.get c.event.event.contentHash).isNone then
    t.contentStore.insert c.event.event.contentHash b
  else t.contentStore

/-- **A verified payload is what is then found under its hash**, whoever wrote it. Either the key was free, or the
bytes under it have the same hash. -/
theorem StoreSound.get_storeWith {D : Set VerifiedEvent} {t : EventTables} (hs : StoreSound D t)
    (hinj : Function.Injective blake3) (hun : Unambiguous D) {c : VerifiedEventContent} {b : Bytes}
    (hb : c.content = some b) (hcD : c.event ∈ D) (hpos : 0 < c.event.event.contentLen) :
    (storeWith t c b).get c.event.event.contentHash = some b := by
  unfold storeWith
  cases hrow : t.contentStore.get c.event.event.contentHash with
  | none => simp
  | some b' =>
    rw [if_neg (by simp), hrow]
    -- the row that is there is lawful, for an empty one would be ambiguous
    rcases hs.law _ _ hrow with hl | ⟨-, v, hv, hlen0, hv'⟩
    · exact congrArg some (hinj (hl.trans (c.length_and_hash hb).2.symm))
    · exact absurd hv'.symm (hun v hv hlen0 c hcD hpos)

theorem StoreSound.process {D : Set VerifiedEvent} {t t' : EventTables} (hs : StoreSound D t)
    (hinj : Function.Injective blake3) (hun : Unambiguous D) {c : VerifiedEventContent} {b : Bytes}
    (hb : c.content = some b) (hcD : c.event ∈ D)
    (hc : t.events.get c.event.id = some c.event.event) (hpos : 0 < c.event.event.contentLen)
    (hev : t'.events = t.events) (hstore : t'.contentStore = storeWith t c b)
    (hstate : t'.eventsContentState = t.eventsContentState.remove c.event.id) :
    StoreSound D t' := by
  obtain ⟨hlen, hhash⟩ := c.length_and_hash hb
  have hrow : ∀ k b', t.contentStore.get k = some b' → t'.contentStore.get k = some b' := by
    intro k b' hb'
    rw [hstore]
    unfold storeWith
    split
    · next hnone =>
      refine (Table.get_insert_of_ne _ _ ?_).trans hb'
      rintro rfl
      rw [hb'] at hnone
      cases hnone
    · exact hb'
  refine ⟨fun k b' hb' => ?_, fun id e he hcls hpos' => ?_⟩
  · rw [hstore] at hb'
    unfold storeWith at hb'
    split at hb'
    · rw [Table.get_insert] at hb'
      split at hb'
      · next hk =>
        cases hb'
        exact .inl (hhash.trans hk.symm)
      · exact hs.law k b' hb'
    · exact hs.law k b' hb'
  · rw [hev] at he
    by_cases hid : id = c.event.id
    · subst hid
      rw [hc] at he
      cases he
      exact ⟨b, by rw [hstore]; exact hs.get_storeWith hinj hun hb hcD hpos, hlen, hhash⟩
    · rw [contentClass, hstate, Table.get_remove_of_ne _ hid] at hcls
      obtain ⟨b', hb', h'⟩ := hs.readable id e he hcls hpos'
      exact ⟨b', hrow _ _ hb', h'⟩

omit [Primitives] in
/-- A hash without a reference belongs to no processed or missing content. -/
theorem Balanced.unreferenced {t : EventTables} (hb : Balanced t) {k : ContentHash}
    (hk : t.contentRc.get k = none) {id : ShortEventId} {e : Event}
    (he : t.events.get id = some e) (hh : e.contentHash = k) :
    (contentClass t id).referenced = false := by
  have hrefs : refs t k = 0 := by
    have := hb.rc k
    rw [hk] at this
    by_contra hne
    rw [if_neg hne] at this
    cases this
  rw [refs_eq_card, Finset.card_eq_zero] at hrefs
  by_contra hr
  have hmem : id ∈ referencing t k := by
    rw [Bool.not_eq_false, referenced_iff] at hr
    simp [referencing, Table.mem_keys_of_get he, he, hh, hr]
  rw [hrefs] at hmem
  simp at hmem

/-- **Every transaction keeps the store sound.**  The collector needs balanced books: what it
removes is referenced by nobody. -/
theorem storeSound_keeps {D : Set VerifiedEvent} (hinj : Function.Injective blake3)
    (hun : Unambiguous D) :
    Keeps D Balanced (fun _ => Balanced) (StoreSound D) (fun _ => StoreSound D) (fun _ => True) where
  insert t v hv _ _ h :=
    (insertEventTx_effect t v).mono (fun _ hr => hr.storeSound h hv) fun _ h => h
  settle t v _ _ _ h :=
    (pruneEventContentTx_effect t v.id v.event).mono (fun _ hr => hr.storeSound h) fun _ h => h
  schedule t v _ _ _ _ h := by
    obtain ⟨q, hq⟩ := ensureMissingScheduledTx_effect t v.id
    rw [hq]
    exact h.mono rfl rfl fun _ h => h
  prune t id e _ _ _ h :=
    (pruneEventContentTx_effect t id e).mono (fun _ hr => hr.storeSound h) fun _ h => h
  store t c b hc hm hb hg _ h := by
    refine (storeContentTx_effect _ _ b).mono (fun t' ht' => ?_) fun _ h => h
    obtain ⟨u, rfl⟩ := ht'
    obtain ⟨w, hw, -, hwe⟩ := hg.keyed _ _ hc
    exact h.process hinj hun hb (VerifiedEvent.ext_event hwe ▸ hw) hc (hg.nonempty _ hm _ hc) rfl
      rfl rfl
  reject t c _ _ _ _ h := by
    refine (rejectContentTx_effect _ _).mono (fun t' ht' => ?_) fun _ h => h
    obtain ⟨rc, u, rfl⟩ := ht'
    refine h.mono rfl rfl fun id hcls => ?_
    by_cases hid : id = c.event.id
    · rw [hid, contentClass, Table.get_insert_self] at hcls
      cases hcls
    · rwa [contentClass, Table.get_insert_of_ne _ _ hid] at hcls
  collect t k hk _ hb h := by
    refine ⟨fun k' b hb' => ?_, fun id e he hcls hpos => ?_⟩
    · rw [Table.get_remove] at hb'
      split at hb'
      · cases hb'
      · exact h.law k' b hb'
    · obtain ⟨b, hb', hrest⟩ := h.readable id e he hcls hpos
      refine ⟨b, (Table.get_remove_of_ne _ ?_).trans hb', hrest⟩
      intro hh
      have hr := hb.unreferenced hk he hh
      rw [show contentClass t id = .current from hcls] at hr
      cases hr
  defer t id _ _ h := by
    obtain ⟨q, hq⟩ := ensureMissingScheduledTx_effect t id
    rw [hq]
    exact h.mono rfl rfl fun _ h => h
  reschedule t id o n u _ _ h := by
    have hr := rescheduleTx_rescheduled t id o n u
    exact h.mono hr.events hr.store fun id' hc => by rwa [hr.classes] at hc
  peek t _ _ h := by
    obtain ⟨q, hq⟩ := peekLoop_effect (t.eventsContentMissing.card + 1) t
    show StoreSound D (peekLoop _ _).1
    rw [hq]
    exact h.mono rfl rfl fun _ h => h
  other _ _ := trivial

theorem measured_keeps (D : Set VerifiedEvent) :
    Keeps D Balanced (fun _ => Balanced) (Measured D) (fun _ => Measured D) (fun _ => True) where
  insert t v hv _ _ h :=
    (insertEventTx_effect t v).mono (fun _ hr => hr.measured h hv) fun _ h => h
  settle t v _ _ _ h :=
    (pruneEventContentTx_effect t v.id v.event).mono (fun _ hr => hr.measured h) fun _ h => h
  schedule t v _ _ _ _ h := by
    obtain ⟨q, hq⟩ := ensureMissingScheduledTx_effect t v.id
    rw [hq]
    exact h.congr rfl rfl fun _ h => h
  prune t id e _ _ _ h :=
    (pruneEventContentTx_effect t id e).mono (fun _ hr => hr.measured h) fun _ h => h
  store t c b hc hm hb hg _ h := by
    refine (storeContentTx_effect _ _ b).mono (fun t' ht' => ?_) fun _ h => h
    obtain ⟨u, rfl⟩ := ht'
    obtain ⟨hlength, -⟩ := c.length_and_hash hb
    obtain ⟨w, hw, -, hwe⟩ := hg.keyed _ _ hc
    refine h.mono (fun k b' hb' => ?_) fun id e he hcls => .inl ?_
    · dsimp only at hb'
      split at hb'
      · rw [Table.get_insert] at hb'
        split at hb'
        · next hk =>
          cases hb'
          exact .inr ⟨w, hw, by rw [hwe, hk], by rw [hwe, hlength]⟩
        · exact .inl hb'
      · exact .inl hb'
    · have hkept : ∀ k, (t.contentStore.get k).isSome → ((storeWith t c b).get k).isSome := by
        intro k hk
        unfold storeWith
        split
        · rw [Table.get_insert]
          split
          · rfl
          · exact hk
        · exact hk
      by_cases hid : id = c.event.id
      · subst hid
        rw [hc] at he
        cases he
        show ((storeWith t c b).get _).isSome
        unfold storeWith
        split
        · rw [Table.get_insert_self]
          rfl
        · next hsome => simpa [Option.isSome_iff_ne_none] using hsome
      · rw [contentClass, Table.get_remove_of_ne _ hid] at hcls
        exact hkept _ (h.held id e he hcls)
  reject t c _ _ _ _ h := by
    refine (rejectContentTx_effect _ _).mono (fun t' ht' => ?_) fun _ h => h
    obtain ⟨rc, u, rfl⟩ := ht'
    refine h.congr rfl rfl fun id hcls => ?_
    by_cases hid : id = c.event.id
    · rw [hid, contentClass, Table.get_insert_self] at hcls
      cases hcls
    · rwa [contentClass, Table.get_insert_of_ne _ _ hid] at hcls
  collect t k hk _ hb h := by
    refine h.mono (fun k' b hb' => ?_) fun id e he hcls => .inr ⟨he, hcls, ?_⟩
    · rw [Table.get_remove] at hb'
      split at hb'
      · cases hb'
      · exact .inl hb'
    · refine Table.get_remove_of_ne _ fun hh => ?_
      have hr := hb.unreferenced hk he hh
      rw [show contentClass t id = .current from hcls] at hr
      cases hr
  defer t id _ _ h := by
    obtain ⟨q, hq⟩ := ensureMissingScheduledTx_effect t id
    rw [hq]
    exact h.congr rfl rfl fun _ h => h
  reschedule t id o n u _ _ h := by
    have hr := rescheduleTx_rescheduled t id o n u
    exact h.congr hr.events hr.store fun id' hc => by rwa [hr.classes] at hc
  peek t _ _ h := by
    obtain ⟨q, hq⟩ := peekLoop_effect (t.eventsContentMissing.card + 1) t
    show Measured D (peekLoop _ _).1
    rw [hq]
    exact h.congr rfl rfl fun _ h => h
  other _ _ := trivial

/-! ## 3. Along every run

Ingestion, pruning and collection are all in the runs. The collector is where the books come in, since what it
removes must not be referred to. -/

/-- A delivered payload finds its event processed or invalid, and readable in the first case. -/
def DeliversReadable (env : Env) (D : Set VerifiedEvent) (db : Database) : Prop :=
  ∀ (c : VerifiedEventContent) (b : Bytes) (now : Timestamp) (ledger : AdmissionState)
    (db' : Database), c.event ∈ D → c.content = some b →
    db.ev.events.get c.event.id = some c.event.event →
    contentClass db.ev c.event.id = .missing →
    step env db (.ingest [.payload c now ledger]) = .ok db' →
      (contentClass db'.ev c.event.id = .current ∧
        db'.ev.contentStore.get c.event.event.contentHash = some b) ∨
      contentClass db'.ev c.event.id = .invalid

/-- **Content-store integrity** of one state. -/
structure ContentIntegrity (env : Env) (D : Set VerifiedEvent) (db : Database) : Prop where
  /-- Every row hashes to its key; the reserved key may hold the empty string. -/
  law : ∀ h b, db.ev.contentStore.get h = some b → blake3 b = h ∨ (h = ContentHash.ZERO ∧ b = [])
  readable : ∀ id e, db.ev.events.get id = some e → db.ev.eventsContentState.get id = none →
    0 < e.contentLen → ∃ b, db.ev.contentStore.get e.contentHash = some b ∧ b.length = e.contentLen
  delivered : DeliversReadable env D db

/-- The invariants the store rests on. -/
abbrev StoreContext (D : Set VerifiedEvent) (t : EventTables) : Prop :=
  (Balanced t ∧ StoreSound D t) ∧ OversizedOut t

theorem storeContext_keeps {D : Set VerifiedEvent} (hinj : Function.Injective blake3)
    (hun : Unambiguous D) :
    Keeps D Anything AnythingMid (StoreContext D)
      (fun v t => (Balanced t ∧ StoreSound D t) ∧ OversizedOutBut (some v.id) t)
      (fun e => (¬IsBooksError e ∧ True) ∧ True) :=
  ((balanced_keeps D).and (storeSound_keeps hinj hun)).and
    (oversizedOut_keeps D).anyContext

/-- The envelope comes first and changes no state, then the payload is taken. -/
theorem deliver_payload_missing {D : Set VerifiedEvent} {I : EventTables → Prop}
    {M : VerifiedEvent → EventTables → Prop} {E : DbError → Prop}
    (h : Keeps D Anything AnythingMid I M E) (hcf : CollisionFree D) {env : Env} {db : Database}
    (hI : OnGround D I db.ev) {c : VerifiedEventContent} (hcD : c.event ∈ D)
    (he : db.ev.events.get c.event.id = some c.event.event)
    (hm : contentClass db.ev c.event.id = .missing)
    (hlen : c.event.event.contentLen < MAX_CONTENT_LEN) (now : Timestamp) (ledger : AdmissionState) :
    Ensures (deliver env db (.payload c now ledger))
      (fun db' => contentClass db'.ev c.event.id = .current ∨
        contentClass db'.ev c.event.id = .invalid) (fun _ => True) := by
  refine (((processEventTx_keeps h hcf hI hcD now _).and
    (processEventTx_effect env {} db c.event now _)).mono (fun _ h => h)
    fun _ _ => trivial).bind fun r ⟨hI₁, heff⟩ => ?_
  refine (processEventContentTx_effect hI₁.1 (heff.stored hI.1.keyed hcf hcD) now ledger
    none).mono (fun db' hdb' => ?_) fun _ h => h
  obtain ⟨db₂, hpay, a, x, rfl⟩ := hdb'
  refine hpay.class_of_missing ?_ (hI.1.nonempty _ hm _ he) hlen
  rw [contentClass, heff.state_kept he hlen]
  exact hm

/-- A payload that is delivered while its event is `Missing`. -/
theorem deliversReadable {D : Set VerifiedEvent} (hinj : Function.Injective blake3)
    (hun : Unambiguous D) (hcf : CollisionFree D) {env : Env} {db : Database}
    (hI : OnGround D (StoreContext D) db.ev) : DeliversReadable env D db := by
  intro c b now ledger db' hcD hb he hm hok
  rw [step_ingest_single] at hok
  have hkeeps := storeContext_keeps hinj hun
  have hlen : c.event.event.contentLen < MAX_CONTENT_LEN := by
    by_contra hlen
    have := hI.2.2 _ _ (by simp) he (not_lt.mp hlen)
    rw [hm] at this
    cases this
  rcases (deliver_payload_missing hkeeps hcf hI hcD he hm hlen now ledger).of_ok hok with hcur | hinv
  · have hI' := (deliver_keeps env hkeeps hcf hI (.payload c now ledger) hcD).of_ok hok
    have hlater := (deliver_keeps env (later_keeps D db.ev) hcf ⟨hI.1, .refl _⟩
      (.payload c now ledger) hcD).of_ok hok
    obtain ⟨b', hb', -, hhash⟩ := hI'.2.1.2.readable _ _ (hlater.2.stored _ _ he) hcur
      (hI.1.nonempty _ hm _ he)
    refine .inl ⟨hcur, ?_⟩
    rw [hb', hinj (hhash.trans (c.length_and_hash hb).2.symm)]
  · exact .inr hinv

/-- **Content-store integrity** in every state of a run without misnamed empty headers: stored bytes hash to their
key, processed content is stored in its length, and a payload that is delivered can be read. -/
theorem contentStore_integrity (env : Env) {D : Set VerifiedEvent} (hcf : CollisionFree D)
    (hh : HashSound) (hempty : ∀ v ∈ D, EmptyHashed v) (ops : List Op) (hD : DeliveredFrom D ops) :
    ContentIntegrity env D (reached env ops) := by
  have hun := unambiguous_of_emptyHashed hh hempty
  have hI := reached_keeps env (storeContext_keeps hh.injective hun) hcf
    ⟨⟨balanced_empty, storeSound_empty D⟩, oversizedOut_empty⟩ ops hD
  refine ⟨fun h b hb => ?_, fun id e he hst hpos => ?_, deliversReadable hh.injective hun hcf hI⟩
  · rcases hI.2.1.2.law h b hb with hl | ⟨rfl, v, hv, hlen, rfl⟩
    · exact .inl hl
    · exact (hempty v hv hlen).imp (·.symm) fun hz => ⟨hz, rfl⟩
  · obtain ⟨b, hb, hlen, -⟩ := hI.2.1.2.readable id e he (classOf_eq_current.mpr hst) hpos
    exact ⟨b, hb, hlen⟩

end Store

/-! ## 4. A header that names another payload's hash

What happens to a run without the condition, at the smallest example there is. -/

section Misnamed

attribute [local instance] Primitives.reference

/-- One byte of content, and the header that claims its hash for the empty string. -/
def misnamedHash : ContentHash := blake3 [7]

def emptyHeader : Event :=
  { kind := ⟨0⟩, contentLen := 0, timestamp := 1, author := toLex (1, 1), contentHash := misnamedHash }

def byteHeader : Event :=
  { kind := ⟨0⟩, contentLen := 1, timestamp := 2, author := toLex (2, 2), contentHash := misnamedHash }

def byteContent : VerifiedEventContent := ⟨⟨.ofEvent byteHeader, some [7]⟩, by decide⟩

def misnamedRun : List Op :=
  [.ingest [.envelope (.ofEvent emptyHeader) 5 .local], .ingest [.payload byteContent 6 {}]]

theorem reference_hashSound : HashSound :=
  ⟨Primitives.reference_injective, fun b h => by cases h⟩

/-- The same payload next to an empty header that names the hash of the empty string. -/
def soundRun : List Op :=
  [.ingest [.envelope (.ofEvent { emptyHeader with contentHash := blake3 [] }) 5 .local],
    .ingest [.payload byteContent 6 {}]]

/-- An empty header and a header with a payload, each with its own hash. -/
theorem contentStore_integrity_soundRun :
    (reached sampleEnv soundRun).ev.contentStore.get misnamedHash = some [7] ∧
      ContentIntegrity sampleEnv (envelopesOf soundRun) (reached sampleEnv soundRun) := by
  refine ⟨by decide +kernel, contentStore_integrity sampleEnv
    (collisionFree_envelopesOf (by decide)) reference_hashSound ?_ soundRun
    (deliveredFrom_envelopesOf soundRun)⟩
  intro v hv hlen
  have hall : ∀ v ∈ soundRun.flatMap Op.delivered, v.event.contentLen = 0 →
      v.event.contentHash = blake3 [] := by decide
  exact .inl (hall v hv hlen)

/-- **The law fails after one misnamed empty header**, and the payload that owns the hash is
processed without being readable. -/
theorem contentStore_misnamed :
    let db := reached sampleEnv misnamedRun
    (∃ b, db.ev.contentStore.get misnamedHash = some b ∧ blake3 b ≠ misnamedHash ∧
        misnamedHash ≠ ContentHash.ZERO) ∧
      db.ev.events.get byteContent.event.id = some byteHeader ∧
      db.ev.eventsContentState.get byteContent.event.id = none ∧ 0 < byteHeader.contentLen ∧
      ¬∃ b, db.ev.contentStore.get byteHeader.contentHash = some b ∧
        b.length = byteHeader.contentLen := by
  have hrow : (reached sampleEnv misnamedRun).ev.contentStore.get misnamedHash = some [] := by
    decide +kernel
  refine ⟨⟨[], hrow, by decide, by decide⟩, by decide +kernel, by decide +kernel, by decide, ?_⟩
  rintro ⟨b, hb, hlen⟩
  rw [show byteHeader.contentHash = misnamedHash from rfl, hrow] at hb
  cases hb
  simp [byteHeader] at hlen

end Misnamed

end Rostra.Db
