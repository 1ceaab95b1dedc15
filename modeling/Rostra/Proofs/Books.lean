/-
# The books balance

Reference counts and usage buckets are kept incrementally, by checked additions and subtractions
scattered over every edge of the content lifecycle.  `Balanced` says what they count: the
stored headers, each weighted by the class its content is in.

* A count is a `tally`: a sum over the stored headers of a weight that depends on the header and on
  its class.  `tally_transition` and `tally_arrive` are the only two things that ever happen to
  one: a header changes its class, or a new header arrives.
* `RcIs` and `UsageIs` say that the two tables hold given counts.  The lemmas about the checked
  operations are stated for arbitrary counts, before and after, so that a subtraction is backed by
  the weight of the very header it is made for.
* The last section is one lemma for each edge.  What is left as a failure is a counter that would
  pass 64 bits.
* `load` is what the stored headers could add to one counter at most: their metadata and their
  content.  No count exceeds it, so a counter that is full says that the load is too great
  (`ledger_within`, `refs_le_load`).

The code keeps its counters by deltas, without ever looking at the sum again. The proof goes the other way: the sum
is the definition, and a delta is right if it is the difference of two sums. The counters differ in their weights
only.
-/
import Mathlib.Algebra.BigOperators.Group.Finset.Piecewise
import Rostra.Proofs.Rules

namespace Rostra.Db

open Rostra Outcome

/-! ## 1. Tallies

Nothing here is about this repository except that the sum runs over headers and their classes. -/

/-- The stored headers, weighted by header and class. -/
def tally (t : EventTables) (w : Event → PayloadBucket → ℕ) : ℕ :=
  t.events.sum fun id e => w e (contentClass t id)

/-- Tallies read headers and classes only. -/
theorem tally_congr {t t' : EventTables} (hev : t'.events = t.events)
    (hclass : ∀ id e, t.events.get id = some e → contentClass t' id = contentClass t id)
    (w : Event → PayloadBucket → ℕ) : tally t' w = tally t w := by
  unfold tally
  rw [hev]
  exact Table.sum_congr fun id e he => by rw [hclass id e he]

/-- **One header changes its class**, and its weight goes from one tally to another. -/
theorem tally_transition {t t' : EventTables} {id : ShortEventId} {e : Event}
    (hev : t'.events = t.events) (he : t.events.get id = some e)
    (hoff : ∀ id', id' ≠ id → contentClass t' id' = contentClass t id')
    (w : Event → PayloadBucket → ℕ) :
    tally t' w + w e (contentClass t id) = tally t w + w e (contentClass t' id) := by
  unfold tally
  rw [hev]
  refine Table.sum_reweigh (fun id e => w e (contentClass t' id))
    (fun id e => w e (contentClass t id)) he fun id' e' hne _ => ?_
  rw [hoff id' hne]

/-- **One header arrives**, in the class that it is given in the same transaction. -/
theorem tally_arrive {t t' : EventTables} {id : ShortEventId} {e : Event}
    (hnew : t.events.get id = none) (hev : t'.events = t.events.insert id e)
    (hoff : ∀ id', id' ≠ id → contentClass t' id' = contentClass t id')
    (w : Event → PayloadBucket → ℕ) :
    tally t' w = w e (contentClass t' id) + tally t w := by
  unfold tally
  rw [hev, Table.sum_insert_new hnew]
  refine congrArg (_ + ·) (Table.sum_congr fun id' e' he' => ?_)
  have hne : id' ≠ id := by
    rintro rfl
    rw [hnew] at he'
    cases he'
  rw [hoff id' hne]

/-! ## 2. The counts

The weights, and what it means that a table holds a count. An absent row is a count of zero, and the reference
table has no row with a zero. -/

/-- A reference to `h` is held. -/
def refWeight (h : ContentHash) (e : Event) (b : PayloadBucket) : ℕ :=
  if e.contentHash = h ∧ b.referenced = true then 1 else 0

/-- The length, in the books of `a` under the class `k`. -/
def sizeWeight (a : RostraId) (k : PayloadBucket) (e : Event) (b : PayloadBucket) : ℕ :=
  if e.author = a ∧ b = k then e.contentLen else 0

def numWeight (a : RostraId) (k : PayloadBucket) (e : Event) (b : PayloadBucket) : ℕ :=
  if e.author = a ∧ b = k then 1 else 0

def ownSizeWeight (a : RostraId) (e : Event) (_ : PayloadBucket) : ℕ :=
  if e.author = a then e.contentLen else 0

def ownNumWeight (a : RostraId) (e : Event) (_ : PayloadBucket) : ℕ :=
  if e.author = a then 1 else 0

/-- The number of stored events that hold a reference to `h`. -/
def refs (t : EventTables) (h : ContentHash) : ℕ := tally t (refWeight h)

/-- What one author's usage record should say. -/
structure Ledger where
  bucket : RostraId → PayloadBucket → PayloadTotal
  total : RostraId → PayloadTotal
  events : RostraId → ℕ

def ledger (t : EventTables) : Ledger where
  bucket a k := ⟨tally t (sizeWeight a k), tally t (numWeight a k)⟩
  total a := ⟨tally t (ownSizeWeight a), tally t (ownNumWeight a)⟩
  events a := tally t (ownNumWeight a)

/-- The reference table holds exactly these counts, and no row for a count of zero. -/
def RcIs (rc : Table ContentHash ℕ) (n : ContentHash → ℕ) : Prop :=
  ∀ h, rc.get h = if n h = 0 then none else some (n h)

/-- A usage record says about `a` what the ledger says. -/
structure Ledger.Holds (l : Ledger) (a : RostraId) (r : IdsDataUsageRecord) : Prop where
  bucket : ∀ k, r.bucket k = l.bucket a k
  total : r.total = l.total a
  currentMetadata : r.currentMetadata = ⟨EVENT_METADATA_SIZE * l.events a, l.events a⟩
  totalMetadata : r.totalMetadata = ⟨EVENT_METADATA_SIZE * l.events a, l.events a⟩

/-- The usage table is this ledger; an absent row is a row of zeros. -/
def UsageIs (u : UsageTable) (l : Ledger) : Prop := ∀ a, l.Holds a (getUsage a u)

/-- **The books balance**: both tables count the stored headers by class. Nothing is said about how they got there,
so every path that writes the state of an event has to keep it. -/
structure Balanced (t : EventTables) : Prop where
  rc : RcIs t.contentRc (refs t)
  usage : UsageIs t.idsDataUsage (ledger t)

theorem balanced_empty : Balanced {} := by
  have hzero : ∀ w, tally {} w = 0 := fun _ => rfl
  refine ⟨fun h => ?_, fun a => ⟨fun k => ?_, ?_, ?_, ?_⟩⟩
  · simp [refs, hzero]
  · cases k <;> simp [ledger, hzero, getUsage, IdsDataUsageRecord.bucket]
  · simp [ledger, hzero, getUsage]
  · simp [ledger, hzero, getUsage]
  · simp [ledger, hzero, getUsage]

/-- The books only depend on headers, classes and the two tables. -/
theorem Balanced.congr {t t' : EventTables} (h : Balanced t) (hev : t'.events = t.events)
    (hrc : t'.contentRc = t.contentRc) (hu : t'.idsDataUsage = t.idsDataUsage)
    (hclass : ∀ id e, t.events.get id = some e → contentClass t' id = contentClass t id) :
    Balanced t' := by
  have htally := tally_congr hev hclass
  have hrefs : refs t' = refs t := funext fun k => htally _
  have hledger : ledger t' = ledger t := by
    simp only [ledger, htally]
  exact ⟨by rw [hrc, hrefs]; exact h.rc, by rw [hu, hledger]; exact h.usage⟩

/-- Counts that were prepared for the headers and states a table ends up with. -/
theorem Balanced.of {t : EventTables} (t' : EventTables) (hrc : RcIs t.contentRc (refs t'))
    (hu : UsageIs t.idsDataUsage (ledger t')) (hev : t.events = t'.events)
    (hst : t.eventsContentState = t'.eventsContentState) : Balanced t := by
  have htally : ∀ w, tally t w = tally t' w := tally_congr hev fun id _ _ => by
    rw [contentClass, contentClass, hst]
  have hrefs : refs t = refs t' := funext fun k => htally _
  have hledger : ledger t = ledger t' := by
    simp only [ledger, htally]
  exact ⟨by rw [hrefs]; exact hrc, by rw [hledger]; exact hu⟩

/-- What one header adds to any counter at most. -/
def cost (e : Event) : ℕ := EVENT_METADATA_SIZE + e.contentLen

/-- What all stored headers add to any counter at most. -/
def load (t : EventTables) : ℕ := t.events.sum fun _ e => cost e

theorem load_congr {t t' : EventTables} (h : t'.events = t.events) : load t' = load t := by
  rw [load, load, h]

theorem load_insert {t t' : EventTables} {id : ShortEventId} {e : Event}
    (hnew : t.events.get id = none) (hev : t'.events = t.events.insert id e) :
    load t' = cost e + load t := by
  rw [load, hev, Table.sum_insert_new hnew, load]

/-- No tally of a weight below the cost exceeds the load. -/
theorem tally_le_load (t : EventTables) {w : Event → PayloadBucket → ℕ} (hw : ∀ e k, w e k ≤ cost e) :
    tally t w ≤ load t :=
  Table.sum_le_sum fun _ e _ => hw e _

theorem refs_le_load (t : EventTables) (h : ContentHash) : refs t h ≤ load t := by
  refine tally_le_load t fun e k => ?_
  unfold refWeight cost EVENT_METADATA_SIZE
  split
  all_goals omega

/-- Every amount of the ledger is at most `n`. -/
structure Ledger.Within (l : Ledger) (n : ℕ) : Prop where
  bucket : ∀ a k, (l.bucket a k).size ≤ n ∧ (l.bucket a k).num ≤ n
  total : ∀ a, (l.total a).size ≤ n ∧ (l.total a).num ≤ n
  events : ∀ a, EVENT_METADATA_SIZE * l.events a ≤ n

/-- **The ledger of the stored headers is within their load**, which bounds every counter by a number that does not
depend on the states. -/
theorem ledger_within (t : EventTables) : (ledger t).Within (load t) := by
  have hsize : ∀ (P : Prop) [Decidable P] (e : Event), (if P then e.contentLen else 0) ≤ cost e := by
    intro P _ e
    unfold cost
    split
    all_goals omega
  have hnum : ∀ (P : Prop) [Decidable P] (e : Event), (if P then 1 else 0) ≤ cost e := by
    intro P _ e
    unfold cost EVENT_METADATA_SIZE
    split
    all_goals omega
  refine ⟨fun a k => ⟨tally_le_load t fun e k' => hsize _ e, tally_le_load t fun e k' => hnum _ e⟩,
    fun a => ⟨tally_le_load t fun e k' => hsize _ e, tally_le_load t fun e k' => hnum _ e⟩,
    fun a => ?_⟩
  have hmul : EVENT_METADATA_SIZE * tally t (ownNumWeight a) =
      tally t fun e k => EVENT_METADATA_SIZE * ownNumWeight a e k := Table.mul_sum ..
  show EVENT_METADATA_SIZE * tally t (ownNumWeight a) ≤ load t
  rw [hmul]
  refine tally_le_load t fun e k => ?_
  unfold ownNumWeight cost
  split
  all_goals omega

theorem Ledger.Within.mono {l : Ledger} {n m : ℕ} (h : l.Within n) (hn : n ≤ m) : l.Within m :=
  ⟨fun a k => ⟨(h.bucket a k).1.trans hn, (h.bucket a k).2.trans hn⟩,
    fun a => ⟨(h.total a).1.trans hn, (h.total a).2.trans hn⟩, fun a => (h.events a).trans hn⟩

/-! ## 3. The checked operations, for arbitrary counts

Stating these for arbitrary counts is what makes them usable at every edge: the caller knows the count that it has
and the one that it wants, and the operation is right if they differ by its argument. -/

/-- What is left as a failure once the books balance. -/
def IsCounterFull (e : DbError) : Prop := ∃ c, e = .overflow c .add

/-- A counter is full, and the ledger that was to be reached does not fit into 64 bits. -/
def Ledger.Overflows (l : Ledger) (e : DbError) : Prop := IsCounterFull e ∧ ¬l.Within u64Max

/-- A ledger within `n` overflows only when `n` is past 64 bits. -/
theorem Ledger.Overflows.exceeds {l : Ledger} {e : DbError} {n : ℕ} (h : l.Overflows e)
    (hl : l.Within n) : IsCounterFull e ∧ u64Max < n := by
  refine ⟨h.1, ?_⟩
  by_contra hle
  exact h.2 (hl.mono (Nat.le_of_not_lt hle))

/-- An addition whose result is an amount of the ledger fails only when the ledger does not fit. -/
theorem PayloadTotal.add_overflows {x : PayloadTotal} {len : ℕ} {l : Ledger}
    (hfits : l.Within u64Max → x.size + len ≤ u64Max ∧ x.num + 1 ≤ u64Max) :
    Ensures (x.add len) (· = ⟨x.size + len, x.num + 1⟩) l.Overflows := by
  refine (PayloadTotal.add_ensures x len).mono (fun _ h => h) fun err he => ⟨⟨_, he.2⟩, fun hw => ?_⟩
  obtain ⟨hsize, hnum⟩ := hfits hw
  omega

/-- **A release is backed by the count it takes one from.** The hypothesis is that the new specification counts one
less, which an event that leaves a referenced class provides. -/
theorem decrementContentRcTx_rcIs {rc : Table ContentHash ℕ} {n n' : ContentHash → ℕ}
    {h : ContentHash} (hrc : RcIs rc n) (hn : ∀ k, n' k + (if k = h then 1 else 0) = n k) :
    Ensures (decrementContentRcTx h rc) (fun rc' => RcIs rc' n') (fun _ => False) := by
  have hh : n' h + 1 = n h := by simpa using hn h
  have hoff : ∀ k, k ≠ h → n' k = n k := fun k hk => by simpa [hk] using hn k
  have hrow : rc.get h = some (n' h + 1) := by
    rw [hrc h, ← hh, if_neg (by omega)]
  unfold decrementContentRcTx
  simp only [hrow, checkedSub, Nat.le_add_left, if_true, Nat.add_sub_cancel]
  show RcIs (if n' h = 0 then rc.remove h else rc.insert h (n' h)) n'
  intro k
  by_cases hk : k = h
  · subst hk
    split
    · next h0 => rw [Table.get_remove_self]
    · next h0 => rw [Table.get_insert_self]
  · rw [hoff k hk, ← hrc k]
    split
    · exact Table.get_remove_of_ne _ hk
    · exact Table.get_insert_of_ne _ _ hk

theorem incrementContentRcTx_rcIs {rc : Table ContentHash ℕ} {n : ContentHash → ℕ}
    (n' : ContentHash → ℕ) {h : ContentHash} (hrc : RcIs rc n) (hn : ∀ k, n' k = n k + (if k = h then 1 else 0)) :
    Ensures (incrementContentRcTx h rc) (fun rc' => RcIs rc' n')
      (fun e => IsCounterFull e ∧ u64Max < n' h) := by
  have hh : n' h = n h + 1 := by simpa using hn h
  have hoff : ∀ k, k ≠ h → n' k = n k := fun k hk => by simpa [hk] using hn k
  have hget : (rc.get h).getD 0 = n h := by
    rw [hrc h]
    split
    · next h0 => exact h0.symm
    · rfl
  have hzero : rc.get h ≠ some 0 := by
    rw [hrc h]
    split
    · simp
    · next h0 => simpa using h0
  unfold incrementContentRcTx
  rw [if_neg hzero, hget]
  refine ((checkedAdd_ensures ..).mono (fun _ h => h)
    fun e he => ⟨⟨_, he.2⟩, hh.symm ▸ he.1⟩).bind fun count hc => ?_
  show RcIs (rc.insert h count) n'
  intro k
  by_cases hk : k = h
  · subst hk
    rw [Table.get_insert_self, hc, ← hh, if_neg (by omega)]
  · rw [Table.get_insert_of_ne _ _ hk, hoff k hk, hrc k]

@[simp] theorem getUsage_insert_self (a : RostraId) (u : UsageTable) (r : IdsDataUsageRecord) :
    getUsage a (u.insert a r) = r := by
  simp [getUsage]

theorem getUsage_insert_of_ne {a b : RostraId} (u : UsageTable) (r : IdsDataUsageRecord)
    (h : b ≠ a) : getUsage b (u.insert a r) = getUsage b u := by
  rw [getUsage, getUsage, Table.get_insert_of_ne _ _ h]

namespace IdsDataUsageRecord

variable (u : IdsDataUsageRecord) (b k : PayloadBucket) (x : PayloadTotal)

theorem bucket_setBucket : (u.setBucket b x).bucket k = if k = b then x else u.bucket k := by
  cases b <;> cases k <;> rfl

@[simp] theorem total_setBucket : (u.setBucket b x).total = u.total := by
  cases b <;> rfl

@[simp] theorem currentMetadata_setBucket :
    (u.setBucket b x).currentMetadata = u.currentMetadata := by
  cases b <;> rfl

@[simp] theorem totalMetadata_setBucket : (u.setBucket b x).totalMetadata = u.totalMetadata := by
  cases b <;> rfl

theorem bucket_withTotal : ({ u with total := x }).bucket k = u.bucket k := by
  cases k <;> rfl

theorem bucket_withMetadata (y : PayloadTotal) :
    ({ u with currentMetadata := x, totalMetadata := y }).bucket k = u.bucket k := by
  cases k <;> rfl

end IdsDataUsageRecord

/-- Two ledgers that agree about one author. -/
structure Ledger.AgreeAt (l l' : Ledger) (a : RostraId) : Prop where
  bucket : ∀ k, l'.bucket a k = l.bucket a k
  total : l'.total a = l.total a
  events : l'.events a = l.events a

theorem Ledger.Holds.congr {l l' : Ledger} {a : RostraId} {r : IdsDataUsageRecord}
    (h : l.Holds a r) (hl : l.AgreeAt l' a) : l'.Holds a r := by
  refine ⟨fun k => (h.bucket k).trans (hl.bucket k).symm, h.total.trans hl.total.symm, ?_, ?_⟩
  · rw [hl.events]; exact h.currentMetadata
  · rw [hl.events]; exact h.totalMetadata

/-- A record is written for one author; the others keep theirs. -/
theorem UsageIs.insert {u : UsageTable} {l l' : Ledger} {a : RostraId} {r : IdsDataUsageRecord}
    (hu : UsageIs u l) (hself : l'.Holds a r) (hoff : ∀ b, b ≠ a → l.AgreeAt l' b) :
    UsageIs (u.insert a r) l' := by
  intro b
  by_cases hb : b = a
  · subst hb
    rw [getUsage_insert_self]
    exact hself
  · rw [getUsage_insert_of_ne _ _ hb]
    exact (hu b).congr (hoff b hb)

/-- One payload of `e` moves from the bucket `src` to the bucket `dst`. -/
structure Ledger.Moved (l l' : Ledger) (e : Event) (src dst : PayloadBucket) : Prop where
  size : ∀ a k, (l'.bucket a k).size + sizeWeight a k e src = (l.bucket a k).size + sizeWeight a k e dst
  num : ∀ a k, (l'.bucket a k).num + numWeight a k e src = (l.bucket a k).num + numWeight a k e dst
  total : l'.total = l.total
  events : l'.events = l.events

/-- One new payload of `e` is recorded in the bucket `dst`. -/
structure Ledger.Recorded (l l' : Ledger) (e : Event) (dst : PayloadBucket) : Prop where
  size : ∀ a k, (l'.bucket a k).size = (l.bucket a k).size + sizeWeight a k e dst
  num : ∀ a k, (l'.bucket a k).num = (l.bucket a k).num + numWeight a k e dst
  totalSize : ∀ a, (l'.total a).size = (l.total a).size + ownSizeWeight a e dst
  totalNum : ∀ a, (l'.total a).num = (l.total a).num + ownNumWeight a e dst
  events : l'.events = l.events

/-- A bucket that a move does not touch. -/
theorem Ledger.Moved.bucket_eq {l l' : Ledger} {e : Event} {src dst : PayloadBucket}
    (hm : l.Moved l' e src dst) {a : RostraId} {k : PayloadBucket}
    (h : e.author ≠ a ∨ (src ≠ k ∧ dst ≠ k)) : l'.bucket a k = l.bucket a k := by
  have hsrc : ¬(e.author = a ∧ src = k) := fun ⟨h1, h2⟩ => h.elim (· h1) fun h' => h'.1 h2
  have hdst : ¬(e.author = a ∧ dst = k) := fun ⟨h1, h2⟩ => h.elim (· h1) fun h' => h'.2 h2
  have h1 := hm.size a k
  have h2 := hm.num a k
  simp only [sizeWeight, numWeight, if_neg hsrc, if_neg hdst, Nat.add_zero] at h1 h2
  exact PayloadTotal.ext h1 h2

/-- **A move is backed by the bucket it takes from.** The subtraction from it is checked, and the addition to the
other bucket is bounded by the load. -/
theorem movePayloadTx_usageIs {u : UsageTable} {l l' : Ledger} {e : Event} {src dst : PayloadBucket}
    (hu : UsageIs u l) (hm : l.Moved l' e src dst) (hne : src ≠ dst) :
    Ensures (movePayloadTx src dst e.author e.contentLen u) (fun u' => UsageIs u' l')
      l'.Overflows := by
  have hsrc : (l'.bucket e.author src).size + e.contentLen = (l.bucket e.author src).size ∧
      (l'.bucket e.author src).num + 1 = (l.bucket e.author src).num := by
    have h1 := hm.size e.author src
    have h2 := hm.num e.author src
    simpa [sizeWeight, numWeight, hne.symm] using And.intro h1 h2
  have hdst : l'.bucket e.author dst =
      ⟨(l.bucket e.author dst).size + e.contentLen, (l.bucket e.author dst).num + 1⟩ := by
    have h1 := hm.size e.author dst
    have h2 := hm.num e.author dst
    simp only [sizeWeight, numWeight, hne, and_false, and_self, if_true, if_false,
      Nat.add_zero] at h1 h2
    exact PayloadTotal.ext h1 h2
  have hold := hu e.author
  unfold movePayloadTx
  refine (PayloadTotal.sub_ensures.mono (fun _ h => h) ?_).bind fun rest hrest => ?_
  · rintro err ⟨hlt, -⟩
    rw [hold.bucket] at hlt
    omega
  obtain ⟨-, -, hrest⟩ := hrest
  have hkept : ((getUsage e.author u).setBucket src rest).bucket dst = l.bucket e.author dst := by
    rw [IdsDataUsageRecord.bucket_setBucket, if_neg hne.symm, hold.bucket]
  dsimp only
  rw [hkept]
  have hroom : l'.Within u64Max → (l.bucket e.author dst).size + e.contentLen ≤ u64Max ∧
      (l.bucket e.author dst).num + 1 ≤ u64Max := fun hw => by
    have hfits := hw.bucket e.author dst
    rwa [hdst] at hfits
  refine (PayloadTotal.add_overflows hroom).bind fun target htarget => ?_
  rw [hold.bucket] at hrest
  refine ensures_pure.mpr (hu.insert ⟨fun k => ?_, ?_, ?_, ?_⟩ fun b hb => ⟨fun k => ?_, ?_, ?_⟩)
  · rw [IdsDataUsageRecord.bucket_setBucket, IdsDataUsageRecord.bucket_setBucket, hold.bucket]
    split
    · next hk => rw [hk, htarget, hdst]
    · next hk =>
      split
      · next hk' =>
        rw [hk', hrest, ← hsrc.1, ← hsrc.2, Nat.add_sub_cancel, Nat.add_sub_cancel]
      · next hk' => exact (hm.bucket_eq (.inr ⟨Ne.symm hk', Ne.symm hk⟩)).symm
  · simpa [hm.total] using hold.total
  · simpa [hm.events] using hold.currentMetadata
  · simpa [hm.events] using hold.totalMetadata
  · exact hm.bucket_eq (.inl hb.symm)
  · rw [hm.total]
  · rw [hm.events]

theorem recordPayloadTx_usageIs {u : UsageTable} {l l' : Ledger} {e : Event} {dst : PayloadBucket}
    (hu : UsageIs u l) (hr : l.Recorded l' e dst) :
    Ensures (recordPayloadTx dst e.author e.contentLen u) (fun u' => UsageIs u' l')
      l'.Overflows := by
  have hdst : l'.bucket e.author dst =
      ⟨(l.bucket e.author dst).size + e.contentLen, (l.bucket e.author dst).num + 1⟩ :=
    PayloadTotal.ext (by simpa [sizeWeight] using hr.size e.author dst)
      (by simpa [numWeight] using hr.num e.author dst)
  have hoff : ∀ a k, e.author ≠ a ∨ dst ≠ k → l'.bucket a k = l.bucket a k := by
    intro a k h
    have hk : ¬(e.author = a ∧ dst = k) := fun ⟨h1, h2⟩ => h.elim (· h1) (· h2)
    exact PayloadTotal.ext (by simpa [sizeWeight, hk] using hr.size a k)
      (by simpa [numWeight, hk] using hr.num a k)
  have htotal : l'.total e.author =
      ⟨(l.total e.author).size + e.contentLen, (l.total e.author).num + 1⟩ :=
    PayloadTotal.ext (by simpa [ownSizeWeight] using hr.totalSize e.author)
      (by simpa [ownNumWeight] using hr.totalNum e.author)
  have hold := hu e.author
  unfold recordPayloadTx
  dsimp only
  rw [hold.total]
  have hroomTotal : l'.Within u64Max → (l.total e.author).size + e.contentLen ≤ u64Max ∧
      (l.total e.author).num + 1 ≤ u64Max := fun hw => by
    have hfits := hw.total e.author
    rwa [htotal] at hfits
  refine (PayloadTotal.add_overflows hroomTotal).bind fun total ht => ?_
  rw [hold.bucket]
  have hroom : l'.Within u64Max → (l.bucket e.author dst).size + e.contentLen ≤ u64Max ∧
      (l.bucket e.author dst).num + 1 ≤ u64Max := fun hw => by
    have hfits := hw.bucket e.author dst
    rwa [hdst] at hfits
  refine (PayloadTotal.add_overflows hroom).bind fun target htarget => ?_
  refine ensures_pure.mpr (hu.insert ⟨fun k => ?_, ?_, ?_, ?_⟩ fun b hb => ⟨fun k => ?_, ?_, ?_⟩)
  · rw [IdsDataUsageRecord.bucket_setBucket, IdsDataUsageRecord.bucket_withTotal, hold.bucket]
    split
    · next hk => rw [hk, htarget, hdst]
    · next hk => exact (hoff _ _ (.inr (Ne.symm hk))).symm
  · rw [IdsDataUsageRecord.total_setBucket, htotal, ← ht]
  · simpa [hr.events] using hold.currentMetadata
  · simpa [hr.events] using hold.totalMetadata
  · exact hoff b k (.inl hb.symm)
  · exact PayloadTotal.ext (by simpa [ownSizeWeight, hb.symm] using hr.totalSize b)
      (by simpa [ownNumWeight, hb.symm] using hr.totalNum b)
  · rw [hr.events]

/-- The metadata charge of one new header. -/
theorem trackNewEventTx_usageIs {u : UsageTable} {l : Ledger} (l' : Ledger) {a : RostraId}
    (hu : UsageIs u l) (hb : l'.bucket = l.bucket) (ht : l'.total = l.total)
    (he : ∀ b, l'.events b = l.events b + if a = b then 1 else 0) :
    Ensures (trackNewEventTx a u) (fun u' => UsageIs u' l') l'.Overflows := by
  have hold := hu a
  have hself : l'.events a = l.events a + 1 := by simpa using he a
  have hmeta : (⟨EVENT_METADATA_SIZE * l.events a + EVENT_METADATA_SIZE, l.events a + 1⟩ :
      PayloadTotal) = ⟨EVENT_METADATA_SIZE * l'.events a, l'.events a⟩ := by
    rw [hself, Nat.mul_succ]
  have hadd : Ensures ((⟨EVENT_METADATA_SIZE * l.events a, l.events a⟩ : PayloadTotal).add
      EVENT_METADATA_SIZE) (fun y => y = ⟨EVENT_METADATA_SIZE * l.events a + EVENT_METADATA_SIZE,
        l.events a + 1⟩) l'.Overflows := by
    refine PayloadTotal.add_overflows fun hw => ?_
    have hfits := hw.events a
    rw [hself] at hfits
    dsimp only
    unfold EVENT_METADATA_SIZE at hfits ⊢
    omega
  unfold trackNewEventTx
  dsimp only
  rw [hold.currentMetadata, hold.totalMetadata]
  refine hadd.bind fun current hc => hadd.bind fun total htot => ?_
  refine ensures_pure.mpr (hu.insert ⟨fun k => ?_, ?_, ?_, ?_⟩ fun b hne => ⟨fun k => ?_, ?_, ?_⟩)
  · rw [IdsDataUsageRecord.bucket_withMetadata, hold.bucket, hb]
  · exact hold.total.trans (congrFun ht.symm a)
  · exact hc.trans hmeta
  · exact htot.trans hmeta
  · rw [hb]
  · rw [ht]
  · rw [he, if_neg hne.symm, Nat.add_zero]

/-! ## 4. A header changes its class

The change of one state row moves one weight of each count. -/

section Transition

variable (t t' : EventTables) {id : ShortEventId} {e : Event}

theorem refs_transition (hev : t'.events = t.events) (he : t.events.get id = some e)
    (hoff : ∀ id', id' ≠ id → contentClass t' id' = contentClass t id') (h : ContentHash) :
    refs t' h + refWeight h e (contentClass t id) = refs t h + refWeight h e (contentClass t' id) :=
  tally_transition hev he hoff _

theorem ledger_moved (hev : t'.events = t.events) (he : t.events.get id = some e)
    (hoff : ∀ id', id' ≠ id → contentClass t' id' = contentClass t id') :
    (ledger t).Moved (ledger t') e (contentClass t id) (contentClass t' id) := by
  have h := tally_transition hev he hoff
  refine ⟨fun a k => h _, fun a k => h _, funext fun a => ?_, funext fun a => ?_⟩
  · exact PayloadTotal.ext (Nat.add_right_cancel (h (ownSizeWeight a)))
      (Nat.add_right_cancel (h (ownNumWeight a)))
  · exact Nat.add_right_cancel (h (ownNumWeight a))

end Transition

/-- A ledger overflows only under a load that does. -/
theorem overflows_ledger {t t' : EventTables} (hev : t'.events = t.events) {e : DbError}
    (h : (ledger t').Overflows e) : IsCounterFull e ∧ u64Max < load t :=
  h.exceeds ((ledger_within t').mono (load_congr hev).le)

/-- One state row written. -/
abbrev setState (t : EventTables) (id : ShortEventId) (s : EventContentState) : EventTables :=
  { t with eventsContentState := t.eventsContentState.insert id s }

/-- One state row dropped. -/
abbrev clearState (t : EventTables) (id : ShortEventId) : EventTables :=
  { t with eventsContentState := t.eventsContentState.remove id }

theorem contentClass_setState_self (t : EventTables) (id : ShortEventId) (s : EventContentState) :
    contentClass (setState t id s) id = classOf (some s) := by
  simp [contentClass]

theorem contentClass_setState_of_ne (t : EventTables) {id id' : ShortEventId}
    (s : EventContentState) (h : id' ≠ id) :
    contentClass (setState t id s) id' = contentClass t id' := by
  simp [contentClass, Table.get_insert_of_ne _ _ h]

theorem contentClass_clearState_self (t : EventTables) (id : ShortEventId) :
    contentClass (clearState t id) id = .current := by
  simp [contentClass, classOf]

theorem contentClass_clearState_of_ne (t : EventTables) {id id' : ShortEventId} (h : id' ≠ id) :
    contentClass (clearState t id) id' = contentClass t id' := by
  simp [contentClass, Table.get_remove_of_ne _ h]

/-- Content leaves the referenced classes, or moves between the others. -/
theorem leave_rcIs {t : EventTables} {id : ShortEventId} {e : Event} {s : EventContentState}
    (hb : Balanced t) (he : t.events.get id = some e) (hs : (classOf (some s)).referenced = false) :
    Ensures (releaseContentRcTx (t.eventsContentState.get id) e.contentHash t.contentRc)
      (fun rc => RcIs rc (refs (setState t id s))) (fun _ => False) := by
  have hrefs := refs_transition t (setState t id s) rfl he fun id' hne =>
    contentClass_setState_of_ne t s hne
  simp only [contentClass_setState_self, refWeight, hs, Bool.false_eq_true, and_false, if_false,
    Nat.add_zero] at hrefs
  unfold releaseContentRcTx
  rw [rcAlreadyDecremented_eq]
  split
  · next hrel =>
    have hold : (contentClass t id).referenced = false := by simpa [contentClass] using hrel
    intro h
    have := hrefs h
    simp only [hold, Bool.false_eq_true, and_false, if_false, Nat.add_zero] at this
    rw [this]
    exact hb.rc h
  · next hrel =>
    have hold : (contentClass t id).referenced = true := by simpa [contentClass] using hrel
    refine decrementContentRcTx_rcIs hb.rc fun k => ?_
    rw [← hrefs k]
    simp only [hold, and_true, eq_comm]

/-- Its payload changes the bucket. -/
theorem leave_usageIs {t : EventTables} {id : ShortEventId} {e : Event} {s : EventContentState}
    (hb : Balanced t) (he : t.events.get id = some e) (hne : contentClass t id ≠ classOf (some s)) :
    Ensures (movePayloadTx (contentClass t id) (classOf (some s)) e.author e.contentLen
      t.idsDataUsage) (fun u => UsageIs u (ledger (setState t id s)))
      (fun e => IsCounterFull e ∧ u64Max < load t) := by
  have hm := ledger_moved t (setState t id s) rfl he fun id' hne =>
    contentClass_setState_of_ne t s hne
  rw [contentClass_setState_self] at hm
  exact (movePayloadTx_usageIs hb.usage hm hne).mono (fun _ h => h) fun _ => overflows_ledger rfl

/-! ## 5. A header arrives

A new header adds its metadata first and its payload after that, in the bucket of the class in which it starts; the
code may record it in one bucket and move it on at once. -/

/-- One more event of `a`, its payload not entered yet. -/
def Ledger.addEvent (l : Ledger) (a : RostraId) : Ledger :=
  { l with events := fun b => l.events b + if a = b then 1 else 0 }

/-- One more payload. -/
def Ledger.record (l : Ledger) (e : Event) (dst : PayloadBucket) : Ledger where
  bucket a k := ⟨(l.bucket a k).size + sizeWeight a k e dst, (l.bucket a k).num + numWeight a k e dst⟩
  total a := ⟨(l.total a).size + ownSizeWeight a e dst, (l.total a).num + ownNumWeight a e dst⟩
  events := l.events

theorem Ledger.recorded_record (l : Ledger) (e : Event) (dst : PayloadBucket) :
    l.Recorded (l.record e dst) e dst :=
  ⟨fun _ _ => rfl, fun _ _ => rfl, fun _ => rfl, fun _ => rfl, rfl⟩

/-- One more header adds its metadata. -/
theorem Ledger.Within.addEvent {l : Ledger} {n : ℕ} (h : l.Within n) (e : Event) :
    (l.addEvent e.author).Within (cost e + n) := by
  have hold := h.mono (Nat.le_add_left n (cost e))
  refine ⟨hold.bucket, hold.total, fun a => ?_⟩
  have := h.events a
  unfold Ledger.addEvent cost
  dsimp only
  rw [Nat.mul_add]
  split
  all_goals omega

/-- The payload that comes with it adds its length. -/
theorem Ledger.Within.record {l : Ledger} {n : ℕ} (h : l.Within n) (e : Event)
    (dst : PayloadBucket) : ((l.addEvent e.author).record e dst).Within (cost e + n) := by
  have hpos : 1 ≤ cost e ∧ e.contentLen ≤ cost e := by
    unfold cost EVENT_METADATA_SIZE
    omega
  refine ⟨fun a k => ?_, fun a => ?_, (h.addEvent e).events⟩
  · have := h.bucket a k
    simp only [Ledger.record, Ledger.addEvent, sizeWeight, numWeight]
    split
    all_goals omega
  · have := h.total a
    simp only [Ledger.record, Ledger.addEvent, ownSizeWeight, ownNumWeight]
    split
    all_goals omega

/-- To record in one bucket and then move on is to record in the other. -/
theorem Ledger.Recorded.moved {l l' : Ledger} {e : Event} {dst : PayloadBucket}
    (h : l.Recorded l' e dst) (src : PayloadBucket) : (l.record e src).Moved l' e src dst := by
  refine ⟨fun a k => ?_, fun a k => ?_, funext fun a => ?_, h.events⟩
  · rw [h.size]
    simp only [Ledger.record]
    omega
  · rw [h.num]
    simp only [Ledger.record]
    omega
  · exact PayloadTotal.ext (h.totalSize a) (h.totalNum a)

section Arrival

variable (t t' : EventTables) {id : ShortEventId} {e : Event}

theorem refs_arrive (hnew : t.events.get id = none) (hev : t'.events = t.events.insert id e)
    (hoff : ∀ id', id' ≠ id → contentClass t' id' = contentClass t id') (h : ContentHash) :
    refs t' h = refs t h + refWeight h e (contentClass t' id) := by
  rw [Nat.add_comm]
  exact tally_arrive hnew hev hoff _

theorem ledger_recorded (hnew : t.events.get id = none) (hev : t'.events = t.events.insert id e)
    (hoff : ∀ id', id' ≠ id → contentClass t' id' = contentClass t id') :
    ((ledger t).addEvent e.author).Recorded (ledger t') e (contentClass t' id) := by
  have h : ∀ w, tally t' w = tally t w + w e (contentClass t' id) := fun w => by
    rw [Nat.add_comm]
    exact tally_arrive hnew hev hoff w
  exact ⟨fun a k => h _, fun a k => h _, fun a => h _, fun a => h _, funext fun a => h _⟩

end Arrival

/-! ## 6. The edges of the lifecycle

Deletion, arrival, pruning, storing and rejecting: after each, the tables hold the counts of the tables as they are
now. -/

section Books

variable [Primitives]

/-- What an event operation may still be refused for, under the load `n`. -/
def IsRefusal (n : ℕ) (e : DbError) : Prop :=
  IsLostAttribution e ∨ (IsCounterFull e ∧ u64Max < n)

omit [Primitives] in
theorem isRefusal_of_full {n m : ℕ} (hn : n ≤ m) {e : DbError}
    (h : IsCounterFull e ∧ u64Max < n) : IsRefusal m e := .inr ⟨h.1, h.2.trans_le hn⟩

omit [Primitives] in
theorem mergeDeletedByTx_error (n : ℕ) (c : Option ShortEventId) (o : Option EventOrder)
    (h : Headers) : Ensures (mergeDeletedByTx c o h) (fun _ => True) (IsRefusal n) := by
  unfold mergeDeletedByTx
  split
  · trivial
  · trivial
  · split
    · exact .inl ⟨_, rfl⟩
    · trivial

omit [Primitives] in
/-- A deletion is entered once: a second deleter only competes for the attribution. -/
theorem trackParentDeletionTx_usageIs {t : EventTables} {id : ShortEventId} {e : Event}
    (hb : Balanced t) (he : t.events.get id = some e) (d : ShortEventId) :
    Ensures (trackParentDeletionTx (t.eventsContentState.get id) e t.idsDataUsage)
      (fun u => UsageIs u (ledger (setState t id (.deleted d))))
      (fun e => IsCounterFull e ∧ u64Max < load t) := by
  by_cases hc : contentClass t id = .deleted
  · have hsame : Balanced (setState t id (.deleted d)) := by
      refine hb.congr rfl rfl rfl fun id' _ _ => ?_
      by_cases hid : id' = id
      · rw [hid, contentClass_setState_self, hc]
        rfl
      · exact contentClass_setState_of_ne t _ hid
    obtain ⟨d', hs⟩ := classOf_eq_deleted.mp hc
    rw [hs]
    exact hsame.usage
  · unfold trackParentDeletionTx
    split
    · next d' hs => exact absurd (classOf_eq_deleted.mpr ⟨d', hs⟩) hc
    · rw [trackPayloadDeletionTx_eq hc]
      exact leave_usageIs (s := .deleted d) hb he hc

/-- **Direct deletion** releases the reference of the parent, unless it had none any more, and moves its bucket. -/
theorem deleteParentTx_balanced {s : ParentScan} {v : VerifiedEvent} {p : ShortEventId}
    {parent : Event} (hb : Balanced s.ev) (he : s.ev.events.get p = some parent) :
    Ensures (deleteParentTx s v p parent)
      (fun s' => Balanced s'.ev ∧ s'.ev.events = s.ev.events) (IsRefusal (load s.ev)) := by
  unfold deleteParentTx
  refine (mergeDeletedByTx_error _ _ _ _).bind fun by' _ => ?_
  refine ((leave_rcIs (s := .deleted (by'.getD v.id)) hb he rfl).mono (fun _ h => h)
    fun _ h => h.elim).bind fun rc hrc => ?_
  refine ((trackParentDeletionTx_usageIs hb he (by'.getD v.id)).mono (fun _ h => h)
    fun _ => isRefusal_of_full le_rfl).bind fun u hu => ?_
  exact ensures_pure.mpr ⟨.of _ hrc hu rfl rfl, rfl⟩

/-- A parent turn touches the books only through a deletion. -/
theorem visitParentTx_balanced {s : ParentScan} {v : VerifiedEvent} {p : ShortEventId}
    {isAux : Bool} (hb : Balanced s.ev) :
    Ensures (visitParentTx v s p isAux)
      (fun s' => Balanced s'.ev ∧ s'.ev.events = s.ev.events) (IsRefusal (load s.ev)) := by
  unfold visitParentTx
  split
  · next parent ho =>
    split
    · exact deleteParentTx_balanced hb (ownParent?_eq_some.mp ho).1
    · exact ⟨hb, rfl⟩
  · unfold missParentTx
    refine (mergeDeletedByTx_error _ _ _ _).bind fun by' _ => ?_
    exact ensures_pure.mpr ⟨hb.congr rfl rfl rfl fun _ _ _ => rfl, rfl⟩

theorem processParentTx_balanced {s : ParentScan} {v : VerifiedEvent}
    {p : Option ShortEventId × Bool} (hb : Balanced s.ev) :
    Ensures (processParentTx v s p) (fun s' => Balanced s'.ev ∧ s'.ev.events = s.ev.events)
      (IsRefusal (load s.ev)) := by
  unfold processParentTx
  split
  · exact ⟨hb, rfl⟩
  · refine (visitParentTx_balanced hb).bind fun s' hs' => ?_
    exact ensures_pure.mpr ⟨hs'.1.congr rfl rfl rfl fun _ _ _ => rfl, hs'.2⟩

/-- The headers with the new one, everything else as it was. -/
abbrev arrived (t : EventTables) (v : VerifiedEvent) : EventTables :=
  { t with events := t.events.insert v.id v.event }

theorem storeHeaderTx_usageIs {t : EventTables} (hb : Balanced t) (v : VerifiedEvent) :
    Ensures (storeHeaderTx t v)
      (fun t' => t'.events = t.events.insert v.id v.event ∧
        t'.eventsContentState = t.eventsContentState ∧ t'.contentRc = t.contentRc ∧
        UsageIs t'.idsDataUsage ((ledger t).addEvent v.event.author))
      (fun e => IsCounterFull e ∧ u64Max < cost v.event + load t) := by
  unfold storeHeaderTx
  refine ((trackNewEventTx_usageIs ((ledger t).addEvent v.event.author) hb.usage rfl rfl
    fun _ => rfl).mono (fun _ h => h) fun _ he =>
      he.exceeds ((ledger_within t).addEvent v.event)).bind fun u hu => ?_
  exact ⟨rfl, rfl, rfl, hu⟩

/-- **The new header is entered under the class it starts in**: deleted, awaited, or processed when there is
nothing to wait for. -/
theorem startContentTx_balanced {t t₂ : EventTables} {v : VerifiedEvent} {isDeleted : Bool}
    (hb : Balanced t) (hnew : t.events.get v.id = none)
    (hev : t₂.events = t.events.insert v.id v.event)
    (hst : t₂.eventsContentState = t.eventsContentState) (hrc : t₂.contentRc = t.contentRc)
    (hu : UsageIs t₂.idsDataUsage ((ledger t).addEvent v.event.author))
    (hclass : contentClass t v.id = if isDeleted then .deleted else .current) :
    Ensures (startContentTx t₂ v isDeleted) Balanced
      (fun e => IsCounterFull e ∧ u64Max < cost v.event + load t) := by
  have hload : ∀ t' : EventTables, t'.events = t.events.insert v.id v.event → ∀ e,
      (ledger t').Overflows e → IsCounterFull e ∧ u64Max < cost v.event + load t := by
    intro t' hev' e he
    have := overflows_ledger rfl he
    rwa [load_insert hnew hev'] at this
  have hfull : ∀ t' : EventTables, t'.events = t.events.insert v.id v.event → ∀ e k,
      IsCounterFull e ∧ u64Max < refs t' k → IsCounterFull e ∧ u64Max < cost v.event + load t := by
    intro t' hev' e k he
    have := refs_le_load t' k
    rw [load_insert hnew hev'] at this
    exact ⟨he.1, he.2.trans_le this⟩
  unfold startContentTx
  have hplain := ledger_recorded t (arrived t v) hnew rfl fun _ _ => rfl
  have hrefs := refs_arrive t (arrived t v) hnew rfl fun _ _ => rfl
  have harrived : contentClass (arrived t v) v.id = contentClass t v.id := rfl
  rw [harrived, hclass] at hplain
  rw [harrived, hclass] at hrefs
  cases isDeleted with
  | true =>
    rw [if_pos rfl]
    refine ((recordPayloadTx_usageIs hu hplain).mono (fun _ h => h) (hload (arrived t v) rfl)).bind
      fun u hu' => ?_
    refine ensures_pure.mpr (.of (arrived t v) ?_ hu' hev hst)
    intro h
    have := hrefs h
    simp only [refWeight, PayloadBucket.referenced, if_true, Bool.false_eq_true, and_false, if_false,
      Nat.add_zero] at this
    rw [this, hrc]
    exact hb.rc h
  | false =>
    have hrc₂ : RcIs t₂.contentRc (refs t) := by
      rw [hrc]
      exact hb.rc
    rw [if_neg Bool.false_ne_true]
    simp only [Bool.false_eq_true, if_false] at hplain hrefs
    split
    · next hlen =>
      -- nonempty content: the state row is written with the header
      have hoff : ∀ id', id' ≠ v.id →
          contentClass (setState (arrived t v) v.id .freshMissing) id' = contentClass t id' :=
        fun id' hne => contentClass_setState_of_ne (arrived t v) _ hne
      have hrec := ledger_recorded t (setState (arrived t v) v.id .freshMissing)
        hnew rfl hoff
      have hrefs' := refs_arrive t (setState (arrived t v) v.id .freshMissing)
        hnew rfl hoff
      rw [contentClass_setState_self] at hrec
      simp only [contentClass_setState_self] at hrefs'
      unfold startMissingTx
      refine ((incrementContentRcTx_rcIs (refs (setState (arrived t v) v.id .freshMissing)) hrc₂
        fun k => ?_).mono (fun _ h => h) fun e => hfull (setState (arrived t v) v.id .freshMissing)
          rfl e _).bind fun rc hrc' => ?_
      · rw [hrefs' k]
        simp [refWeight, classOf, EventContentState.freshMissing, PayloadBucket.referenced, eq_comm]
      refine ((recordPayloadTx_usageIs hu hrec).mono (fun _ h => h)
        (hload (setState (arrived t v) v.id .freshMissing) rfl)).bind fun u hu' => ?_
      refine ensures_pure.mpr (.of (setState (arrived t v) v.id .freshMissing) hrc' hu' hev ?_)
      simp only [hst]
    · next hlen =>
      unfold startEmptyTx
      refine ((incrementContentRcTx_rcIs (refs (arrived t v)) hrc₂ fun k => ?_).mono (fun _ h => h)
        fun e => hfull (arrived t v) rfl e _).bind fun rc hrc' => ?_
      · rw [hrefs k]
        simp [refWeight, PayloadBucket.referenced, eq_comm]
      refine ((recordPayloadTx_usageIs hu (Ledger.recorded_record _ _ .missing)).mono (fun _ h => h)
        fun _ he => he.exceeds ((ledger_within t).record v.event .missing)).bind fun u hu' => ?_
      refine ((movePayloadTx_usageIs hu' (hplain.moved .missing) (by decide)).mono (fun _ h => h)
        (hload (arrived t v) rfl)).bind fun u' hu'' => ?_
      exact ensures_pure.mpr (.of (arrived t v) hrc' hu'' hev hst)

/-- Resolving the missing row touches no stored event. -/
theorem Taken.balanced {t t₀ : EventTables} {v : VerifiedEvent} {isDeleted : Bool}
    (h : Taken t t₀ v isDeleted) (hb : Balanced t) (hnew : t.events.get v.id = none) :
    Balanced t₀ := by
  refine hb.congr h.events h.rc h.usage fun id e he => ?_
  have hid : id ≠ v.id := by
    rintro rfl
    rw [hnew] at he
    cases he
  rw [contentClass, contentClass, h.state_other hid]

/-- What the insertion of a header may be refused for: its author's identity, or the books. -/
def InsertRefusal (t : EventTables) (v : VerifiedEvent) (e : DbError) : Prop :=
  register t.idsFull v.event.author = .error e ∨ IsRefusal (cost v.event + load t) e

/-- **Insertion keeps the books**, and fails for no reason of theirs. What may fail is listed in `InsertRefusal`.
-/
theorem insertEventTx_balanced {t : EventTables} (hb : Balanced t) (hs : StatesStored t)
    (v : VerifiedEvent) :
    Ensures (insertEventTx t v) (fun r => Balanced r.1) (InsertRefusal t v) := by
  unfold insertEventTx
  refine ((ensures_self _).mono (fun _ h => h) fun _ h => .inl h).bind fun ids _ => ?_
  have hb' : Balanced { t with idsFull := ids } := hb.congr rfl rfl rfl fun _ _ _ => rfl
  split
  · exact hb'
  · next hnew =>
    replace hnew : t.events.get v.id = none := by simpa using hnew
    have htake := takeMissing_taken { t with idsFull := ids } v
    have hload : load (takeMissing { t with idsFull := ids } v).1 = load t := load_congr htake.events
    have hparents : Ensures ((parentIds v.event).foldlM (processParentTx v)
        { ev := (takeMissing { t with idsFull := ids } v).1 })
        (fun s => Balanced s.ev ∧ load s.ev = load t) (IsRefusal (load t)) := by
      refine Ensures.foldlM (J := fun s : ParentScan => Balanced s.ev ∧ load s.ev = load t) _ _
        (fun p _ s hs => ?_) ⟨htake.balanced hb' hnew, hload⟩
      exact (processParentTx_balanced hs.1).mono
        (fun s' hs' => ⟨hs'.1, (load_congr hs'.2).trans hs.2⟩) fun e he => hs.2 ▸ he
    unfold insertNewEventTx
    refine ((hparents.and (parentIds_effect v _)).mono (fun _ h => h) fun _ h =>
      .inr (h.1.imp_right fun h => ⟨h.1, h.2.trans_le (Nat.le_add_left _ _)⟩)).bind fun s hsound => ?_
    obtain ⟨⟨hbs, hloads⟩, hscan⟩ := hsound
    have hnew₀ : (takeMissing { t with idsFull := ids } v).1.events.get v.id = none := by
      rw [htake.events]
      exact hnew
    have hclass : contentClass s.ev v.id =
        if (takeMissing { t with idsFull := ids } v).2.2 then .deleted else .current := by
      have h := htake.state
      rw [contentClass, hscan.state_self hnew₀]
      split at h
      · next hd =>
        obtain ⟨d, hd'⟩ := h
        rw [hd, hd', Table.get_insert_self]
        rfl
      · next hd =>
        rw [if_neg hd, h]
        exact classOf_eq_current.mpr (hs.state_none hnew)
    refine ((storeHeaderTx_usageIs hbs v).mono (fun _ h => h) fun _ h =>
      .inr (isRefusal_of_full (by rw [hloads]) h)).bind fun t₂ hheader => ?_
    obtain ⟨hev, hst, hrc, hu⟩ := hheader
    refine ((startContentTx_balanced hbs (by rw [hscan.events]; exact hnew₀) hev hst hrc hu
      hclass).mono (fun _ h => h) fun _ h => .inr (isRefusal_of_full (by rw [hloads]) h)).bind
      fun t₃ h₃ => ?_
    exact h₃

omit [Primitives] in
/-- Content that holds a reference gives it up. -/
theorem releaseContentRcTx_eq {s : Option EventContentState} {h : ContentHash}
    {rc : Table ContentHash ℕ} (hr : (classOf s).referenced = true) :
    releaseContentRcTx s h rc = decrementContentRcTx h rc := by
  simp [releaseContentRcTx, rcAlreadyDecremented_eq, hr]

omit [Primitives] in
/-- **Pruning**, oversized or by quota. Content that is deleted or invalid already is left alone. -/
theorem pruneEventContentTx_balanced {t : EventTables} {id : ShortEventId} {e : Event}
    (hb : Balanced t) (he : t.events.get id = some e) :
    Ensures (pruneEventContentTx t id e) (fun r => Balanced r.1)
      (fun e => IsCounterFull e ∧ u64Max < load t) := by
  cases hr : (contentClass t id).referenced with
  | false =>
    rw [pruneEventContentTx_terminal hr]
    exact hb
  | true =>
    have hne : contentClass t id ≠ .pruned := by
      intro h
      rw [h] at hr
      cases hr
    have hrc := leave_rcIs (s := .pruned) hb he rfl
    rw [releaseContentRcTx_eq hr] at hrc
    rw [pruneEventContentTx_referenced hr]
    refine (hrc.mono (fun _ h => h) fun _ h => h.elim).bind fun rc hrc' => ?_
    refine (leave_usageIs (s := .pruned) hb he hne).bind fun u hu' => ?_
    exact ensures_pure.mpr (.of (setState t id .pruned) hrc' hu' rfl rfl)

/-- **A valid payload**: the event keeps its reference and changes its bucket. -/
theorem storeContentTx_balanced {t : EventTables} {v : VerifiedEvent} (hb : Balanced t)
    (he : t.events.get v.id = some v.event) (hm : contentClass t v.id = .missing) (b : Bytes) :
    Ensures (storeContentTx t v b) Balanced (fun e => IsCounterFull e ∧ u64Max < load t) := by
  have hrefs := refs_transition t (clearState t v.id) rfl he
    fun id' hne => contentClass_clearState_of_ne t hne
  have hmoved := ledger_moved t (clearState t v.id) rfl he
    fun id' hne => contentClass_clearState_of_ne t hne
  rw [contentClass_clearState_self, hm] at hmoved
  unfold storeContentTx
  refine ((movePayloadTx_usageIs hb.usage hmoved (by decide)).mono (fun _ h => h)
    fun _ => overflows_ledger rfl).bind fun u hu => ?_
  refine ensures_pure.mpr (.of (clearState t v.id) (fun h => ?_) hu rfl rfl)
  have := hrefs h
  rw [contentClass_clearState_self, hm] at this
  have hsame : refs (clearState t v.id) h = refs t h := Nat.add_right_cancel this
  rw [hsame]
  exact hb.rc h

/-- **An invalid payload**: the reference is released. -/
theorem rejectContentTx_balanced {t : EventTables} {v : VerifiedEvent} (hb : Balanced t)
    (he : t.events.get v.id = some v.event) (hm : contentClass t v.id = .missing) :
    Ensures (rejectContentTx t v) Balanced (fun e => IsCounterFull e ∧ u64Max < load t) := by
  have hrc := leave_rcIs (s := .invalid) hb he rfl
  have hu := leave_usageIs (s := .invalid) hb he (by rw [hm]; decide)
  rw [releaseContentRcTx_eq (by rw [← contentClass, hm]; rfl)] at hrc
  rw [hm] at hu
  unfold rejectContentTx
  refine (hrc.mono (fun _ h => h) fun _ h => h.elim).bind fun rc hrc' => ?_
  refine hu.bind fun u hu' => ?_
  exact ensures_pure.mpr (.of (setState t v.id .invalid) hrc' hu' rfl rfl)

/-! ## 7. Along every run

What is left over as an error is a counter that is full, and the counts are read back as cardinalities and sums
over the stored events. -/

/-- The errors that books out of balance would raise. -/
def IsBooksError (e : DbError) : Prop :=
  e = .payloadAccountingInvariant .contentRc ∨ e = .overflow .contentRc .sub ∨
    e = .payloadAccountingInvariant .dataUsage ∨ e = .overflow .dataUsage .sub

omit [Primitives] in
theorem IsCounterFull.not_isBooksError {e : DbError} (h : IsCounterFull e) : ¬IsBooksError e := by
  obtain ⟨_, rfl⟩ := h
  simp [IsBooksError]

theorem InsertRefusal.not_isBooksError {t : EventTables} {v : VerifiedEvent} {e : DbError}
    (h : InsertRefusal t v e) : ¬IsBooksError e := by
  rcases h with h | ⟨_, rfl⟩ | h
  · obtain ⟨_, _, _, rfl⟩ := (register_ensures _ _).of_error h
    simp [IsBooksError]
  · simp [IsBooksError]
  · exact h.1.not_isBooksError

omit [Primitives] in
theorem not_isBooksError_of_other {e : DbError} (h : ¬IsEventError e) : ¬IsBooksError e := by
  rintro (rfl | rfl | rfl | rfl)
  · exact h (.inr (.inr (.inl (.inl rfl))))
  · exact h (.inr (.inr (.inl (.inr ⟨_, rfl⟩))))
  · exact h (.inr (.inr (.inr (.inl rfl))))
  · exact h (.inr (.inr (.inr (.inr ⟨_, rfl⟩))))

omit [Primitives] in
/-- The schedule is not in the books. -/
theorem Balanced.withQueue {t : EventTables} (h : Balanced t)
    (q : Finset (Timestamp ×ₗ ShortEventId)) : Balanced { t with eventsContentMissing := q } :=
  h.congr rfl rfl rfl fun _ _ _ => rfl

/-- **The books stay balanced**, whatever a transaction does. An instance of the rule of `Proofs/Rules`; also, no
transaction fails with an error of the books. -/
theorem balanced_keeps (D : Set VerifiedEvent) :
    Keeps D Anything AnythingMid Balanced (fun _ => Balanced) (fun e => ¬IsBooksError e) where
  insert t v _ hg _ hb :=
    (insertEventTx_balanced hb hg.states v).mono (fun _ h => h) fun _ => InsertRefusal.not_isBooksError
  settle t v he _ _ hb :=
    (pruneEventContentTx_balanced hb he).mono (fun _ h => h) fun _ h => h.1.not_isBooksError
  schedule t v _ _ _ _ hb := by
    obtain ⟨q, hq⟩ := ensureMissingScheduledTx_effect t v.id
    rw [hq]
    exact hb.withQueue q
  prune t id e he _ _ hb :=
    (pruneEventContentTx_balanced hb he).mono (fun _ h => h) fun _ h => h.1.not_isBooksError
  store t c b he hm _ _ _ hb :=
    (storeContentTx_balanced (t := unscheduled t c.event.id) (hb.withQueue _) he hm b).mono
      (fun _ h => h) fun _ h => h.1.not_isBooksError
  reject t c he hm _ _ hb :=
    (rejectContentTx_balanced (t := unscheduled t c.event.id) (hb.withQueue _) he hm).mono
      (fun _ h => h) fun _ h => h.1.not_isBooksError
  collect t h _ _ _ hb := hb.congr rfl rfl rfl fun _ _ _ => rfl
  defer t id _ _ hb := by
    obtain ⟨q, hq⟩ := ensureMissingScheduledTx_effect t id
    rw [hq]
    exact hb.withQueue q
  reschedule t id observed next update _ _ hb := by
    rcases rescheduleTx_effect t id observed next update with heq | ⟨_, _, _, _, _, hs, -, -, heq⟩
    · rw [heq]
      exact hb
    · rw [heq]
      refine hb.congr rfl rfl rfl fun id' e he => ?_
      by_cases hid : id' = id
      · simp [contentClass, hid, hs, classOf]
      · simp [contentClass, Table.get_insert_of_ne _ _ hid]
  peek t _ _ hb := by
    obtain ⟨q, hq⟩ := peekLoop_effect (t.eventsContentMissing.card + 1) t
    show Balanced (peekLoop _ _).1
    rw [hq]
    exact hb.withQueue q
  other e he := not_isBooksError_of_other he

/-- The stored events that hold a reference to `h`: `Missing` or processed, with this hash. -/
def referencing (t : EventTables) (h : ContentHash) : Finset ShortEventId :=
  t.events.keys.filter fun id => (t.events.get id).any (·.contentHash = h) ∧
    (contentClass t id = .missing ∨ contentClass t id = .current)

omit [Primitives] in
theorem referenced_iff (k : PayloadBucket) : k.referenced = true ↔ k = .missing ∨ k = .current := by
  cases k <;> simp [PayloadBucket.referenced]

omit [Primitives] in
theorem refs_eq_card (t : EventTables) (h : ContentHash) : refs t h = (referencing t h).card := by
  unfold refs tally Table.sum referencing
  rw [Finset.card_filter]
  refine Finset.sum_congr rfl fun id hid => ?_
  obtain ⟨e, he⟩ := Table.mem_keys.mp hid
  simp [he, refWeight, referenced_iff]

/-- One author's stored events of one class. -/
def eventsOf (t : EventTables) (a : RostraId) (k : PayloadBucket) : Finset ShortEventId :=
  t.events.keys.filter fun id => (t.events.get id).any (·.author = a) ∧ contentClass t id = k

def ownEvents (t : EventTables) (a : RostraId) : Finset ShortEventId :=
  t.events.keys.filter fun id => (t.events.get id).any (·.author = a)

/-- The length a stored header declares. -/
def lenOf (t : EventTables) (id : ShortEventId) : ℕ := ((t.events.get id).map (·.contentLen)).getD 0

omit [Primitives] in
theorem bucket_eq_sum (t : EventTables) (a : RostraId) (k : PayloadBucket) :
    (ledger t).bucket a k = ⟨∑ id ∈ eventsOf t a k, lenOf t id, (eventsOf t a k).card⟩ := by
  unfold ledger tally Table.sum eventsOf
  rw [Finset.card_filter, Finset.sum_filter]
  refine PayloadTotal.ext (Finset.sum_congr rfl fun id hid => ?_)
    (Finset.sum_congr rfl fun id hid => ?_)
  · obtain ⟨e, he⟩ := Table.mem_keys.mp hid
    simp [he, sizeWeight, lenOf]
  · obtain ⟨e, he⟩ := Table.mem_keys.mp hid
    simp [he, numWeight]

omit [Primitives] in
theorem events_eq_card (t : EventTables) (a : RostraId) :
    (ledger t).events a = (ownEvents t a).card := by
  unfold ledger tally Table.sum ownEvents
  rw [Finset.card_filter]
  refine Finset.sum_congr rfl fun id hid => ?_
  obtain ⟨e, he⟩ := Table.mem_keys.mp hid
  simp [he, ownNumWeight]

omit [Primitives] in
/-- A weight that is the sum of others is tallied as their sum. -/
theorem tally_add (t : EventTables) (w w' : Event → PayloadBucket → ℕ) :
    tally t (fun e k => w e k + w' e k) = tally t w + tally t w' := by
  unfold tally Table.sum
  rw [← Finset.sum_add_distrib]
  refine Finset.sum_congr rfl fun id hid => ?_
  obtain ⟨e, he⟩ := Table.mem_keys.mp hid
  simp [he]

/-- The five buckets of a record, added up. -/
def IdsDataUsageRecord.bucketSum (u : IdsDataUsageRecord) : PayloadTotal :=
  ⟨u.current.size + u.missing.size + u.deleted.size + u.pruned.size + u.invalid.size,
    u.current.num + u.missing.num + u.deleted.num + u.pruned.num + u.invalid.num⟩

omit [Primitives] in
/-- Every payload is in exactly one bucket. -/
theorem total_eq_bucketSum {t : EventTables} (hb : Balanced t) (a : RostraId) :
    (getUsage a t.idsDataUsage).total = (getUsage a t.idsDataUsage).bucketSum := by
  have h := hb.usage a
  have hk : ∀ k, (getUsage a t.idsDataUsage).bucket k =
      ⟨tally t (sizeWeight a k), tally t (numWeight a k)⟩ := h.bucket
  have hcur := hk .current
  have hmis := hk .missing
  have hdel := hk .deleted
  have hpru := hk .pruned
  have hinv := hk .invalid
  simp only [IdsDataUsageRecord.bucket] at hcur hmis hdel hpru hinv
  rw [h.total, IdsDataUsageRecord.bucketSum, hcur, hmis, hdel, hpru, hinv]
  refine PayloadTotal.ext ?_ ?_
  · simp only [ledger, ← tally_add]
    congr 1
    funext e k
    by_cases ha : e.author = a <;> cases k <;> simp [ownSizeWeight, sizeWeight, ha]
  · simp only [ledger, ← tally_add]
    congr 1
    funext e k
    by_cases ha : e.author = a <;> cases k <;> simp [ownNumWeight, numWeight, ha]

/-- **Reference counts are exact** in every reached state, and no operation on them ever fails for an invariant or
an underflow. The row of a hash without references is absent, and not zero. -/
theorem contentRc_exact (env : Env) {D : Set VerifiedEvent} (hcf : CollisionFree D) (ops : List Op)
    (hD : DeliveredFrom D ops) :
    (∀ h, (reached env ops).ev.contentRc.get h =
        if (referencing (reached env ops).ev h).card = 0 then none
        else some (referencing (reached env ops).ev h).card) ∧
      ∀ o e, (∀ v ∈ o.delivered, v ∈ D) → step env (reached env ops) o = .error e →
        e ≠ .payloadAccountingInvariant .contentRc ∧ e ≠ .overflow .contentRc .sub := by
  have hb := reached_keeps env (balanced_keeps D) hcf balanced_empty ops hD
  refine ⟨fun h => ?_, fun o e ho he => ?_⟩
  · rw [← refs_eq_card]
    exact hb.2.rc h
  · have hno := (step_keeps (balanced_keeps D) hcf hb o ho).of_error he
    exact ⟨fun h => hno (.inl h), fun h => hno (.inr (.inl h))⟩

/-- **Usage buckets are exact** in every reached state, and no checked subtraction on them ever fails. The sums are
over the stored events of an author, by the class of their content. -/
theorem idsDataUsage_exact (env : Env) {D : Set VerifiedEvent} (hcf : CollisionFree D)
    (ops : List Op) (hD : DeliveredFrom D ops) :
    (∀ a, let t := (reached env ops).ev
      let u := getUsage a t.idsDataUsage
      (∀ k, u.bucket k = ⟨∑ id ∈ eventsOf t a k, lenOf t id, (eventsOf t a k).card⟩) ∧
        u.total = u.bucketSum ∧
        u.currentMetadata = ⟨EVENT_METADATA_SIZE * (ownEvents t a).card, (ownEvents t a).card⟩ ∧
        u.totalMetadata = ⟨EVENT_METADATA_SIZE * (ownEvents t a).card, (ownEvents t a).card⟩) ∧
      ∀ o e, (∀ v ∈ o.delivered, v ∈ D) → step env (reached env ops) o = .error e →
        e ≠ .overflow .dataUsage .sub ∧ e ≠ .payloadAccountingInvariant .dataUsage := by
  have hb := reached_keeps env (balanced_keeps D) hcf balanced_empty ops hD
  refine ⟨fun a => ⟨fun k => ?_, total_eq_bucketSum hb.2 a, ?_, ?_⟩, fun o e ho he => ?_⟩
  · rw [← bucket_eq_sum]
    exact (hb.2.usage a).bucket k
  · rw [← events_eq_card]
    exact (hb.2.usage a).currentMetadata
  · rw [← events_eq_card]
    exact (hb.2.usage a).totalMetadata
  · have hno := (step_keeps (balanced_keeps D) hcf hb o ho).of_error he
    exact ⟨fun h => hno (.inr (.inr (.inr h))), fun h => hno (.inr (.inr (.inl h)))⟩

end Books

section Sample

attribute [local instance] Primitives.reference

/-- After the deletion only the waiting event holds a reference. -/
theorem contentRc_exact_sampleRun :
    (reached sampleEnv sampleRun).ev.contentRc.get samplePost.contentHash = none ∧
      (reached sampleEnv sampleRun).ev.contentRc.get sampleWaiting.contentHash =
        if (referencing (reached sampleEnv sampleRun).ev sampleWaiting.contentHash).card = 0
        then none
        else some (referencing (reached sampleEnv sampleRun).ev sampleWaiting.contentHash).card :=
  ⟨by decide +kernel, (contentRc_exact sampleEnv sampleRun_collisionFree sampleRun
    (deliveredFrom_envelopesOf sampleRun)).1 _⟩

/-- The deleted bucket of the author holds the two bytes of his deleted post. -/
theorem idsDataUsage_exact_sampleRun :
    let u := getUsage (toLex (1, 1)) (reached sampleEnv sampleRun).ev.idsDataUsage
    u.deleted = ⟨2, 1⟩ ∧ u.total = u.bucketSum :=
  ⟨by decide +kernel, ((idsDataUsage_exact sampleEnv sampleRun_collisionFree sampleRun
    (deliveredFrom_envelopesOf sampleRun)).1 _).2.1⟩

end Sample

end Rostra.Db
