/-
# Buffer charges are conserved

The counters of a ledger and the handles they stand for are kept apart: a call changes the counters
under the mutex and returns a handle, and a handle gives its charge back when it is dropped, in
whichever order and however late.  `Conserved` says that they always agree.

* `Process.live` weighs the handles charged to one ledger: the armed allocations and the buffers.
* Every call is one of four moves: nothing, a new charge, a charge that changes its size or its
  owner, a charge that goes.  One lemma each, and `leaseStep_conserved` is the case split.
* A counter is at least the charge it is asked to give back, so no release underflows.

Nothing is said about when a handle is dropped, and a handle that is forgotten keeps its charge. What is excluded
is the other way round: that a counter says less than is out, or that it says more than any handle can still give
back. Either would be an error that no later call could repair, since the counters are never recomputed.
-/
import Rostra.Db.Leases
import Rostra.Proofs.Basic

namespace Rostra.Db

open Rostra

/-! ## 1. Live charges

A handle has at most one charge, at the ledger that it was created for. Its weight in the books of a ledger is that
charge, or nothing. -/

/-- The weight of an allocation in the books of `l`; a disarmed one has none. -/
def PayloadAllocation.share (l : LedgerId) (w : ℕ → ℕ) (a : PayloadAllocation) : ℕ :=
  if a.ledger = some l then w a.bytes else 0

def OwnedBuffer.share (l : LedgerId) (w : ℕ → ℕ) (b : OwnedBuffer) : ℕ :=
  if b.owner.ledger = l then w b.bytes else 0

/-- The live owners charged to `l`, each weighted by its charge. -/
def Process.live (p : Process) (l : LedgerId) (w : ℕ → ℕ) : ℕ :=
  (p.allocations.sum fun _ a => a.share l w) + p.buffers.sum fun _ b => b.share l w

/-- The number of live owners. -/
def Process.liveBuffers (p : Process) (l : LedgerId) : ℕ := p.live l fun _ => 1

/-- The sum of their charges. -/
def Process.liveBytes (p : Process) (l : LedgerId) : ℕ := p.live l fun bytes => bytes

/-- Within the budgets the ledger was configured with. -/
def AdmissionState.Within (s : AdmissionState) : Prop :=
  ∀ config, s.config = some config →
    s.buffers ≤ config.inFlightCount ∧ s.bufferBytes ≤ config.inFlightBytes

/-- Names in use are old, and what is charged is charged to a ledger that exists. -/
structure HandlesNamed (p : Process) : Prop where
  ledgers : ∀ l s, p.ledgers.get l = some s → l < p.next
  allocations : ∀ h a, p.allocations.get h = some a →
    h < p.next ∧ ∀ l, a.ledger = some l → (p.ledgers.get l).isSome
  reservations : ∀ h o, p.reservations.get h = some o →
    h < p.next ∧ (p.ledgers.get o.ledger).isSome
  buffers : ∀ h b, p.buffers.get h = some b → h < p.next ∧ (p.ledgers.get b.owner.ledger).isSome

/-- **The ledgers agree with the live owners**: the two counters are sums over the handles, and both are within the
budgets. -/
structure Conserved (p : Process) : Prop where
  named : HandlesNamed p
  counted : ∀ l s, p.ledgers.get l = some s →
    s.buffers = p.liveBuffers l ∧ s.bufferBytes = p.liveBytes l
  within : ∀ l s, p.ledgers.get l = some s → s.Within

theorem handlesNamed_empty : HandlesNamed {} := by
  refine ⟨?_, ?_, ?_, ?_⟩
  · intro l s hs
    simp at hs
  · intro h a ha
    simp at ha
  · intro h o ho
    simp at ho
  · intro h b hb
    simp at hb

theorem conserved_empty : Conserved {} := by
  refine ⟨handlesNamed_empty, ?_, ?_⟩
  · intro l s hs
    simp at hs
  · intro l s hs
    simp at hs

variable {p p' : Process} {l : LedgerId} {s s' : AdmissionState}

/-- **The rule for a call that charges one ledger**: `gone` leaves the live owners and `come` joins
them. -/
theorem Conserved.charge (h : Conserved p) (hs : p.ledgers.get l = some s) (hnamed : HandlesNamed p')
    (hl : p'.ledgers = p.ledgers.insert l s') (gone come : (ℕ → ℕ) → ℕ)
    (hlive : ∀ l' w, p'.live l' w + (if l' = l then gone w else 0) =
      p.live l' w + if l' = l then come w else 0)
    (hcount : s'.buffers + gone (fun _ => 1) = s.buffers + come fun _ => 1)
    (hbytes : s'.bufferBytes + gone (fun n => n) = s.bufferBytes + come fun n => n)
    (hwithin : s'.Within) : Conserved p' := by
  refine ⟨hnamed, fun l' t ht => ?_, fun l' t ht => ?_⟩
  · have hc := hlive l' fun _ => 1
    have hb := hlive l' fun n => n
    rw [hl, Table.get_insert] at ht
    simp only [Process.liveBuffers, Process.liveBytes]
    split at ht
    · next hll =>
      cases ht
      subst hll
      have hold := h.counted l' s hs
      simp only [Process.liveBuffers, Process.liveBytes] at hold
      simp only [if_true] at hc hb
      omega
    · next hll =>
      have hold := h.counted l' t ht
      simp only [Process.liveBuffers, Process.liveBytes] at hold
      simp only [if_neg hll] at hc hb
      omega
  · rw [hl, Table.get_insert] at ht
    split at ht
    · cases ht
      exact hwithin
    · exact h.within l' t ht

/-- **The rule for a call that charges nobody**: whatever is charged stays charged where it was, and
a ledger that is new is empty. -/
theorem Conserved.uncharged (h : Conserved p) (hnamed : HandlesNamed p')
    (hlive : ∀ l w, p'.live l w = p.live l w)
    (hledgers : ∀ l s', p'.ledgers.get l = some s' →
      (∃ s, p.ledgers.get l = some s ∧ s'.buffers = s.buffers ∧ s'.bufferBytes = s.bufferBytes ∧
        s'.config = s.config) ∨
      (p.next ≤ l ∧ s'.buffers = 0 ∧ s'.bufferBytes = 0)) : Conserved p' := by
  have hnone : ∀ l w, p.next ≤ l → p.live l w = 0 := by
    intro l w hle
    have hget : ¬(p.ledgers.get l).isSome := by
      intro hsome
      obtain ⟨s, hs⟩ := Option.isSome_iff_exists.mp hsome
      exact absurd (h.named.ledgers l s hs) (Nat.not_lt.mpr hle)
    have ha : ∀ k a, p.allocations.get k = some a → a.share l w = 0 := by
      intro k a hka
      exact if_neg fun hl => hget ((h.named.allocations k a hka).2 l hl)
    have hb : ∀ k b, p.buffers.get k = some b → b.share l w = 0 := by
      intro k b hkb
      refine if_neg fun hl => hget ?_
      rw [← hl]
      exact (h.named.buffers k b hkb).2
    unfold Process.live
    rw [Table.sum_eq_zero ha, Table.sum_eq_zero hb]
  refine ⟨hnamed, fun l t ht => ?_, fun l t ht config hc => ?_⟩
  · simp only [Process.liveBuffers, Process.liveBytes, hlive]
    rcases hledgers l t ht with ⟨s, hs, hb, hbb, -⟩ | ⟨hle, hb, hbb⟩
    · have hold := h.counted l s hs
      rw [hb, hbb]
      exact hold
    · rw [hb, hbb, hnone l _ hle, hnone l _ hle]
      exact ⟨rfl, rfl⟩
  · rcases hledgers l t ht with ⟨s, hs, hb, hbb, hconfig⟩ | ⟨hle, hb, hbb⟩
    · rw [hb, hbb]
      exact h.within l s hs config (hconfig ▸ hc)
    · rw [hb, hbb]
      exact ⟨Nat.zero_le _, Nat.zero_le _⟩

/-- A ledger counts at least what one of its owners is charged. -/
theorem Conserved.covers_allocation (h : Conserved p) (hs : p.ledgers.get l = some s) {k : HandleId}
    {a : PayloadAllocation} (ha : p.allocations.get k = some a) (hl : a.ledger = some l) :
    1 ≤ s.buffers ∧ a.bytes ≤ s.bufferBytes := by
  have hle : ∀ w : ℕ → ℕ, w a.bytes ≤ p.live l w := by
    intro w
    have hw := Table.weight_le_sum ha fun _ a => a.share l w
    simp only [PayloadAllocation.share, if_pos hl] at hw
    exact hw.trans (Nat.le_add_right _ _)
  obtain ⟨hc, hb⟩ := h.counted l s hs
  rw [hc, hb]
  exact ⟨hle fun _ => 1, hle fun n => n⟩

theorem Conserved.covers_buffer (h : Conserved p) {k : HandleId} {b : OwnedBuffer}
    (hb : p.buffers.get k = some b) (hs : p.ledgers.get b.owner.ledger = some s) :
    1 ≤ s.buffers ∧ b.bytes ≤ s.bufferBytes := by
  have hle : ∀ w : ℕ → ℕ, w b.bytes ≤ p.live b.owner.ledger w := by
    intro w
    have hw := Table.weight_le_sum hb fun _ b' => b'.share b.owner.ledger w
    simp only [OwnedBuffer.share, if_true] at hw
    exact hw.trans (Nat.le_add_left _ _)
  obtain ⟨hc, hbb⟩ := h.counted _ s hs
  rw [hc, hbb]
  exact ⟨hle fun _ => 1, hle fun n => n⟩

/-! ## 2. Charges that come

A charge is checked against the budgets of its ledger before it is made, and if it does not fit nothing is changed. -/

theorem Process.live_allocate (p : Process) (hnew : p.allocations.get p.next = none)
    (l l' : LedgerId) (bytes n : ℕ) (t : Table LedgerId AdmissionState) (w : ℕ → ℕ) :
    ({ p with
      ledgers := t
      allocations := p.allocations.insert p.next ⟨some l, bytes⟩
      next := n } : Process).live l' w = p.live l' w + if l' = l then w bytes else 0 := by
  simp only [Process.live, Table.sum_insert_new hnew, PayloadAllocation.share, Option.some.injEq,
    eq_comm (a := l)]
  omega

theorem Process.live_acquire (p : Process) (hnew : p.buffers.get p.next = none) (b : OwnedBuffer)
    (n : ℕ) (t : Table LedgerId AdmissionState) (l' : LedgerId) (w : ℕ → ℕ) :
    ({ p with
      ledgers := t
      buffers := p.buffers.insert p.next b
      next := n } : Process).live l' w =
        p.live l' w + if l' = b.owner.ledger then w b.bytes else 0 := by
  simp only [Process.live, Table.sum_insert_new hnew, OwnedBuffer.share,
    eq_comm (a := b.owner.ledger)]
  omega

theorem Conserved.allocation_new (h : Conserved p) : p.allocations.get p.next = none := by
  cases hget : p.allocations.get p.next with
  | none => rfl
  | some a => exact absurd (h.named.allocations _ a hget).1 (Nat.lt_irrefl _)

theorem Conserved.buffer_new (h : Conserved p) : p.buffers.get p.next = none := by
  cases hget : p.buffers.get p.next with
  | none => rfl
  | some b => exact absurd (h.named.buffers _ b hget).1 (Nat.lt_irrefl _)

theorem reservePayloadAllocation_spec {bytes : ℕ} (h : reservePayloadAllocation s bytes = .ok s')
    (hc : s.config.isSome) (hw : s.Within) :
    s'.buffers = s.buffers + 1 ∧ s'.bufferBytes = s.bufferBytes + bytes ∧ s'.Within := by
  unfold reservePayloadAllocation at h
  split at h
  · next hnone =>
    rw [hnone] at hc
    cases hc
  next config hconfig =>
  split at h
  · cases h
  next hroom =>
  split at h
  · cases h
  next hbytes =>
  cases h
  refine ⟨rfl, rfl, fun c hc' => ?_⟩
  have hcc : c = config := Option.some.inj (hc'.symm.trans hconfig)
  subst hcc
  have := hw c hconfig
  dsimp only
  omega

theorem tryAcquireBuffer_spec {b : PayloadBuffer} (h : tryAcquireBuffer s b = .ok s')
    (hw : s.Within) :
    s'.buffers = s.buffers + 1 ∧ s'.bufferBytes = s.bufferBytes + b.bytes ∧ s'.Within := by
  unfold tryAcquireBuffer at h
  split at h
  · cases h
  split at h
  · cases h
  next config hconfig =>
  split at h
  · cases h
  next hroom =>
  split at h
  · cases h
  next hbytes =>
  cases h
  refine ⟨rfl, rfl, fun c hc' => ?_⟩
  have hcc : c = config := Option.some.inj (hc'.symm.trans hconfig)
  subst hcc
  have := hw c hconfig
  dsimp only
  omega

theorem reserveAllocation_conserved (h : Conserved p) (l : LedgerId) (bytes : ℕ) :
    Conserved (p.reserveAllocation l bytes).2 := by
  unfold Process.reserveAllocation
  split
  · exact h
  next s hs =>
  split
  · exact h
  · exact h
  next config s' hconfig hok =>
  obtain ⟨hc, hb, hw⟩ := reservePayloadAllocation_spec hok (by rw [hconfig]; rfl) (h.within l s hs)
  have hl := h.named.ledgers l s hs
  refine h.charge hs ?_ rfl (fun _ => 0) (fun w => w bytes) (fun l' w => ?_) hc hb hw
  · obtain ⟨h1, h2, h3, h4⟩ := h.named
    constructor
    all_goals grind
  · rw [p.live_allocate h.allocation_new]
    simp

theorem tryAcquireBuffer_conserved (h : Conserved p) (r : HandleId) :
    Conserved (p.tryAcquireBuffer r).2 := by
  unfold Process.tryAcquireBuffer
  split
  · exact h
  next o ho =>
  split
  · exact h
  next s hs =>
  split
  · exact h
  next s' hok =>
  obtain ⟨hc, hb, hw⟩ := tryAcquireBuffer_spec hok (h.within _ s hs)
  refine h.charge hs ?_ rfl (fun _ => 0) (fun w => w o.bytes) (fun l' w => ?_) hc hb hw
  · have ho' := h.named.reservations r o ho
    obtain ⟨h1, h2, h3, h4⟩ := h.named
    constructor
    all_goals grind
  · rw [p.live_acquire h.buffer_new]
    simp

/-! ## 3. Charges that change

A buffer may grow, and a provisional allocation is bound to the reservation that was made for it. -/

theorem tryGrow_conserved (h : Conserved p) (k : HandleId) (bytes : ℕ) :
    Conserved (p.tryGrow k bytes).2 := by
  unfold Process.tryGrow
  split
  · exact h
  next a ha =>
  obtain ⟨charged, old⟩ := a
  split
  · exact h
  next l hl =>
  cases hl
  split
  · exact h
  next hmore =>
  dsimp only at hmore
  split
  · exact h
  next s hs =>
  split
  · exact h
  next config hconfig =>
  dsimp only
  split
  · exact h
  next hroom =>
  have hold := h.within l s hs config hconfig
  have hcover := h.covers_allocation hs ha rfl
  refine h.charge hs ?_ rfl (fun w => w old) (fun w => w bytes) (fun l' w => ?_) rfl ?_ ?_
  · have ha' := h.named.allocations k _ ha
    obtain ⟨h1, h2, h3, h4⟩ := h.named
    constructor
    all_goals grind
  · have hsum := Table.sum_replace ha ⟨some l, bytes⟩ fun _ a => a.share l' w
    simp only [PayloadAllocation.share, Option.some.injEq, eq_comm (a := l)] at hsum
    simp only [Process.live, PayloadAllocation.share]
    omega
  · dsimp only at hcover ⊢
    omega
  · intro c hc
    have hcc : c = config := Option.some.inj (hc.symm.trans hconfig)
    subst hcc
    dsimp only
    omega

/-- **A charge changes its owner**: no counter moves, and no byte is charged twice or not at all. -/
theorem bindToReservation_conserved (h : Conserved p) (k r : HandleId) :
    Conserved (p.bindToReservation k r).2 := by
  unfold Process.bindToReservation
  split
  · next a o ha ho =>
    split
    · exact h
    next l hl =>
    split
    · exact h
    next hsame =>
    split
    · exact h
    next s hs =>
    split
    · exact h
    rw [not_or, not_not] at hsame
    refine h.uncharged ?_ (fun l' w => ?_) fun l' s' hs' => .inl ⟨s', hs', rfl, rfl, rfl⟩
    · have ha' := h.named.allocations k a ha
      have ho' := h.named.reservations r o ho
      obtain ⟨h1, h2, h3, h4⟩ := h.named
      constructor
      all_goals grind
    · have hsum := Table.sum_replace ha { a with ledger := none } fun _ a => a.share l' w
      simp only [PayloadAllocation.share, hl, Option.some.injEq, reduceCtorEq, if_false,
        hsame.1] at hsum
      simp only [Process.live, Table.sum_insert_new h.buffer_new, PayloadAllocation.share,
        OwnedBuffer.share]
      omega
  · exact h

/-! ## 4. Charges that go

A drop subtracts what the handle was charged. The subtraction is covered, because the sum over the live handles of
the ledger contains this charge. -/

/-- **A release that is covered** does not underflow, in neither of the two counters. -/
theorem Process.release_spec {bytes : ℕ} (hs : p.ledgers.get l = some s)
    (hcover : 1 ≤ s.buffers ∧ bytes ≤ s.bufferBytes) :
    p.release l bytes = some { p with
      ledgers := p.ledgers.insert l
        { s with buffers := s.buffers - 1, bufferBytes := s.bufferBytes - bytes } } := by
  simp only [Process.release, hs, AdmissionState.release, if_pos hcover, Option.map_some]

theorem AdmissionState.Within.released (hw : s.Within) (bytes : ℕ) :
    ({ s with buffers := s.buffers - 1, bufferBytes := s.bufferBytes - bytes } :
      AdmissionState).Within := by
  intro config hconfig
  have := hw config hconfig
  dsimp only
  omega

theorem dropAllocation_conserved (h : Conserved p) (k : HandleId) :
    Conserved (p.dropAllocation k).2 ∧ (p.dropAllocation k).1 ≠ .underflow := by
  unfold Process.dropAllocation
  split
  · exact ⟨h, by simp⟩
  next a ha =>
  dsimp only
  have hsum := fun l' w => Table.sum_remove ha fun _ a => a.share l' w
  have hnamed : HandlesNamed { p with allocations := p.allocations.remove k } := by
    obtain ⟨h1, h2, h3, h4⟩ := h.named
    constructor
    all_goals grind
  split
  · next hl =>
    refine ⟨h.uncharged hnamed (fun l' w => ?_) fun l' s' hs' => .inl ⟨s', hs', rfl, rfl, rfl⟩,
      by simp⟩
    have hw := hsum l' w
    simp only [PayloadAllocation.share, hl, reduceCtorEq, if_false] at hw
    simp only [Process.live, PayloadAllocation.share]
    omega
  next l hl =>
  obtain ⟨s, hs⟩ := Option.isSome_iff_exists.mp ((h.named.allocations k a ha).2 l hl)
  have hcover := h.covers_allocation hs ha hl
  rw [Process.release_spec (p := { p with allocations := p.allocations.remove k }) hs hcover]
  refine ⟨?_, by simp⟩
  refine h.charge hs ?_ rfl (fun w => w a.bytes) (fun _ => 0) (fun l' w => ?_) ?_ ?_
    ((h.within l s hs).released a.bytes)
  · obtain ⟨h1, h2, h3, h4⟩ := hnamed
    constructor
    all_goals grind
  · have hw := hsum l' w
    simp only [PayloadAllocation.share, hl, Option.some.injEq, eq_comm (a := l)] at hw
    simp only [Process.live, PayloadAllocation.share, ite_self]
    omega
  · dsimp only
    omega
  · dsimp only
    omega

/-- What a ledger has besides its leases. -/
def AdmissionState.books (s : AdmissionState) : ℕ × ℕ × Option PayloadAdmissionConfig :=
  (s.buffers, s.bufferBytes, s.config)

/-- **The rule for a call that only touches leases**: the counters of a ledger are the same before and after. -/
theorem Conserved.leases (h : Conserved p) {t : Table LedgerId AdmissionState}
    (ht : ∀ l, (t.get l).map AdmissionState.books = (p.ledgers.get l).map AdmissionState.books) :
    Conserved { p with ledgers := t } := by
  have hrow : ∀ l s', t.get l = some s' → ∃ s, p.ledgers.get l = some s ∧ s.books = s'.books := by
    intro l s' hs'
    have heq := ht l
    rw [hs'] at heq
    exact Option.map_eq_some_iff.mp heq.symm
  have hsome : ∀ l, (p.ledgers.get l).isSome → (t.get l).isSome := by
    intro l hl
    have heq := congrArg Option.isSome (ht l)
    rw [Option.isSome_map, Option.isSome_map] at heq
    rw [heq]
    exact hl
  refine h.uncharged ⟨fun l s' hs' => ?_, fun k a ha => ?_, fun k o ho => ?_, fun k b hb => ?_⟩
    (fun _ _ => rfl) fun l s' hs' => .inl ?_
  · obtain ⟨s, hs, -⟩ := hrow l s' hs'
    exact h.named.ledgers l s hs
  · have hold := h.named.allocations k a ha
    exact ⟨hold.1, fun l hl => hsome l (hold.2 l hl)⟩
  · exact ⟨(h.named.reservations k o ho).1, hsome _ (h.named.reservations k o ho).2⟩
  · exact ⟨(h.named.buffers k b hb).1, hsome _ (h.named.buffers k b hb).2⟩
  · obtain ⟨s, hs, hbooks⟩ := hrow l s' hs'
    simp only [AdmissionState.books, Prod.mk.injEq] at hbooks
    exact ⟨s, hs, hbooks.1.symm, hbooks.2.1.symm, hbooks.2.2.symm⟩

theorem books_insert {t : Table LedgerId AdmissionState} (hs : t.get l = some s)
    (hbooks : s'.books = s.books) (l' : LedgerId) :
    ((t.insert l s').get l').map AdmissionState.books = (t.get l').map AdmissionState.books := by
  rw [Table.get_insert]
  split
  · next hl => rw [hl, hs, Option.map_some, Option.map_some, hbooks]
  · rfl

/-- An owner that goes changes no counter, whatever it finds. -/
theorem dropOwner_conserved (h : Conserved p) (o : ReservationOwner) : Conserved (p.dropOwner o) := by
  unfold Process.dropOwner
  split
  · split
    · exact h
    next s hs =>
    refine h.leases (books_insert hs ?_)
    unfold AdmissionState.cancel
    split
    · rfl
    · rfl
  · exact h

theorem dropBuffer_conserved (h : Conserved p) (k : HandleId) :
    Conserved (p.dropBuffer k).2 ∧ (p.dropBuffer k).1 ≠ .underflow := by
  unfold Process.dropBuffer
  split
  · exact ⟨h, by simp⟩
  next b hb =>
  obtain ⟨s, hs⟩ := Option.isSome_iff_exists.mp (h.named.buffers k b hb).2
  have hcover := h.covers_buffer hb hs
  rw [Process.release_spec (p := { p with buffers := p.buffers.remove k }) hs hcover]
  refine ⟨dropOwner_conserved ?_ b.owner, by simp⟩
  refine h.charge hs ?_ rfl (fun w => w b.bytes) (fun _ => 0) (fun l' w => ?_) ?_ ?_
    ((h.within _ s hs).released b.bytes)
  · obtain ⟨h1, h2, h3, h4⟩ := h.named
    constructor
    all_goals grind
  · have hw := Table.sum_remove hb fun _ b => b.share l' w
    have hown : b.share l' w = if l' = b.owner.ledger then w b.bytes else 0 := by
      exact if_congr eq_comm rfl rfl
    simp only [Process.live, ite_self]
    omega
  · dsimp only
    omega
  · dsimp only
    omega

theorem dropReservation_conserved (h : Conserved p) (r : HandleId) :
    Conserved (p.dropReservation r).2 := by
  unfold Process.dropReservation
  split
  · exact h
  next o ho =>
  have hrest : Conserved { p with reservations := p.reservations.remove r } := by
    refine h.uncharged ?_ (fun _ _ => rfl) fun l s hs => .inl ⟨s, hs, rfl, rfl, rfl⟩
    obtain ⟨h1, h2, h3, h4⟩ := h.named
    constructor
    all_goals grind
  exact dropOwner_conserved hrest o

/-! ## 5. Leases, accounts and databases

These operations move leases and change no counter of buffers. -/

section Tables

variable [Primitives]

/-- A reservation changes no counter of buffers. -/
theorem reservePayloadTx_books {db : Database} {v : VerifiedEvent} {lease : PayloadBuffer}
    (h : reservePayloadTx db v s = .ok (.reserved lease, s')) : s'.books = s.books := by
  unfold reservePayloadTx at h
  split at h
  · cases h
  split at h
  · cases h
  split at h
  · cases h
  split at h
  · cases h
  obtain ⟨pause, -, h⟩ := Outcome.bind_eq_ok.mp h
  cases pause with
  | some reason => cases h
  | none =>
    obtain ⟨id, -, h⟩ := Outcome.bind_eq_ok.mp h
    cases h
    rfl

theorem reservePayload_conserved (h : Conserved p) (d : HandleId) (db : Database)
    (v : VerifiedEvent) : Conserved (p.reservePayload d db v).2 := by
  unfold Process.reservePayload
  split
  · exact h
  next o ho =>
  split
  · exact h
  next s hs =>
  split
  · exact h
  · exact h
  · exact h
  · exact h
  next lease s' hok =>
  have hleases := h.leases (books_insert hs (reservePayloadTx_books hok))
  refine hleases.uncharged ?_ (fun _ _ => rfl) fun l s hs => .inl ⟨s, hs, rfl, rfl, rfl⟩
  obtain ⟨h1, h2, h3, h4⟩ := hleases.named
  constructor
  all_goals grind

omit [Primitives] in
theorem completeAdmission_conserved (h : Conserved p) (d : HandleId) (id : ShortEventId) :
    Conserved (p.completeAdmission d id).2 := by
  unfold Process.completeAdmission
  split
  · exact h
  split
  · exact h
  next s hs =>
  refine h.leases (books_insert hs ?_)
  unfold AdmissionState.complete
  split
  · rfl
  · rfl

end Tables

/-- A ledger that is opened is empty. -/
theorem Conserved.openLedger (h : Conserved p) (s : AdmissionState) (hb : s.buffers = 0)
    (hbb : s.bufferBytes = 0) (accounts : Table HandleId PayloadAccount)
    (databases : Table HandleId OpenDatabase) :
    Conserved { p with
      ledgers := p.ledgers.insert p.next s, accounts := accounts, databases := databases
      next := p.next + 1 } := by
  refine h.uncharged ?_ (fun _ _ => rfl) fun l s' hs' => ?_
  · obtain ⟨h1, h2, h3, h4⟩ := h.named
    constructor
    all_goals grind
  · rw [Table.get_insert] at hs'
    split at hs'
    · next hl =>
      cases hs'
      exact .inr ⟨Nat.le_of_eq hl.symm, hb, hbb⟩
    · exact .inl ⟨s', hs', rfl, rfl, rfl⟩

/-- **Attaching** clears leases and leaves every charge where it is. -/
theorem attach_conserved (h : Conserved p) (d k : HandleId) : Conserved (p.attach d k).2 := by
  unfold Process.attach
  split
  · next o account _ _ =>
    split
    · exact h
    split
    · exact h
    split
    · next own s _ hs =>
      split
      · exact h
      split
      · exact h
      split
      · exact h
      have hleases : Conserved { p with
          ledgers := p.ledgers.insert account.ledger { s with events := ∅ } } :=
        h.leases (books_insert hs rfl)
      refine hleases.uncharged ?_ (fun _ _ => rfl) fun l s hs => .inl ⟨s, hs, rfl, rfl, rfl⟩
      obtain ⟨h1, h2, h3, h4⟩ := hleases.named
      exact ⟨h1, h2, h3, h4⟩
    · exact h
  · exact h

theorem dropDatabase_conserved (h : Conserved p) (d : HandleId) : Conserved (p.dropDatabase d).2 := by
  unfold Process.dropDatabase
  split
  · exact h
  · refine h.uncharged ?_ (fun _ _ => rfl) fun l s hs => .inl ⟨s, hs, rfl, rfl, rfl⟩
    obtain ⟨h1, h2, h3, h4⟩ := h.named
    exact ⟨h1, h2, h3, h4⟩

/-! ## 6. Whole runs

The case split over the calls, and the induction. -/

section Runs

variable [Primitives]

/-- **Every call** keeps the ledgers in agreement with the live owners. The case split is over the calls, and each
case is one of the four moves. -/
theorem leaseStep_conserved (h : Conserved p) (o : LeaseOp) : Conserved (leaseStep p o).2 := by
  cases o with
  | openAccount id config => exact h.openLedger { config := config } rfl rfl _ _
  | openDatabase selfId => exact h.openLedger {} rfl rfl _ _
  | dropDatabase d => exact dropDatabase_conserved h d
  | attach d k => exact attach_conserved h d k
  | reserveAllocation l bytes => exact reserveAllocation_conserved h l bytes
  | tryGrow k bytes => exact tryGrow_conserved h k bytes
  | bind k r => exact bindToReservation_conserved h k r
  | dropAllocation k => exact (dropAllocation_conserved h k).1
  | reserve d db v => exact reservePayload_conserved h d db v
  | complete d id => exact completeAdmission_conserved h d id
  | tryAcquireBuffer r => exact tryAcquireBuffer_conserved h r
  | dropBuffer k => exact (dropBuffer_conserved h k).1
  | dropReservation r => exact dropReservation_conserved h r

/-- **No release underflows**: only a drop gives something back, and its charge is counted. -/
theorem leaseStep_covered (h : Conserved p) (o : LeaseOp) : (leaseStep p o).1 ≠ .underflow := by
  cases o with
  | dropAllocation k => exact (dropAllocation_conserved h k).2
  | dropBuffer k => exact (dropBuffer_conserved h k).2
  | _ =>
    simp only [leaseStep, Process.openAccount, Process.openDatabase, Process.dropDatabase,
      Process.attach, Process.reserveAllocation, Process.tryGrow, Process.bindToReservation,
      Process.reservePayload, Process.completeAdmission, Process.tryAcquireBuffer,
      Process.dropReservation]
    repeat' split
    all_goals simp

/-- **A call that fails changes nothing**: no ledger and no handle, so there is nothing to be given back after it.
-/
theorem leaseStep_failed (p : Process) (o : LeaseOp) :
    (leaseStep p o).1 = .done ∨ (leaseStep p o).2 = p := by
  cases o
  all_goals
    simp only [leaseStep, Process.openAccount, Process.openDatabase, Process.dropDatabase,
      Process.attach, Process.reserveAllocation, Process.tryGrow, Process.bindToReservation,
      Process.dropAllocation, Process.reservePayload, Process.completeAdmission,
      Process.tryAcquireBuffer, Process.dropBuffer, Process.dropReservation]
    repeat' split
  all_goals simp

/-- What every call keeps holds after any calls. -/
theorem leaseRun_conserved (h : Conserved p) (ops : List LeaseOp) : Conserved (leaseRun p ops) := by
  induction ops generalizing p with
  | nil => exact h
  | cons o ops ih => exact ih (leaseStep_conserved h o)

/-- **Buffer charges are conserved.**  After any calls in any order: each ledger counts exactly the
live allocations and buffers charged to it, in number and in bytes, and stays within its budgets;
no further call underflows; and a call that does not succeed leaves every ledger and every handle as
it was. -/
theorem bufferLedger_conserved (ops : List LeaseOp) :
    (∀ l s, (leaseRun {} ops).ledgers.get l = some s →
      s.buffers = (leaseRun {} ops).liveBuffers l ∧ s.bufferBytes = (leaseRun {} ops).liveBytes l ∧
        ∀ config, s.config = some config →
          s.buffers ≤ config.inFlightCount ∧ s.bufferBytes ≤ config.inFlightBytes) ∧
      ∀ o : LeaseOp, (leaseStep (leaseRun {} ops) o).1 ≠ .underflow ∧
        ((leaseStep (leaseRun {} ops) o).1 ≠ .done →
          (leaseStep (leaseRun {} ops) o).2 = leaseRun {} ops) := by
  have h := leaseRun_conserved conserved_empty ops
  refine ⟨fun l s hs => ?_, fun o => ⟨leaseStep_covered h o, fun hfail => ?_⟩⟩
  · obtain ⟨hc, hb⟩ := h.counted l s hs
    exact ⟨hc, hb, h.within l s hs⟩
  · exact (leaseStep_failed _ o).resolve_left hfail

end Runs

section Sample

attribute [local instance] Primitives.reference

def sampleBudgets : PayloadAdmissionConfig := ⟨100, 100, ∅, 2, 10, by decide⟩

/-- A charge of 4 bytes grows to 9, so that another 2 bytes are refused; then it is dropped. -/
example :
    let p := leaseRun {} [.openAccount sampleEnv.selfId (some sampleBudgets),
      .reserveAllocation 0 4, .tryGrow 1 9, .reserveAllocation 0 2]
    (p.ledgers.get 0).map (fun s => (s.buffers, s.bufferBytes)) = some (1, 9) ∧
      ((leaseRun p [.dropAllocation 1]).ledgers.get 0).map (fun s => (s.buffers, s.bufferBytes)) =
        some (0, 0) := by
  decide +kernel

end Sample

end Rostra.Db
