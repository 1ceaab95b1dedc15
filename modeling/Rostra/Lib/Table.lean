/-
# Finite tables

A key/value table of an embedded store: `get`, `insert`, `remove`, and the ordered scan
`nextAfter` that resumable maintenance jobs use.  A table is Mathlib's `Finmap` at a constant
value type, so two tables with the same rows are EQUAL (`Table.ext`) and the theory of the two
primitives is Mathlib's.

What this file adds is the accounting half.  Counters in a store are usually maintained
incrementally while their specification is a sum over the rows of another table, so the
lemmas at the end say what one row operation does to such a sum:

* `sum_insert_new`: a fresh row adds its own weight;
* `sum_reweigh`:    when only one row's weight changes, the sum moves by the difference,
  stated without subtraction so that it can be used with truncated arithmetic;
* `weight_le_sum`:  a row's weight is available for a checked subtraction.

Section 1 is about the keys alone: what a scan that was stopped still finds depends on the set as it is when the
scan goes on, not as it was. Section 2 is the simp set of the point operations. Nothing here knows what the rows
are for.
-/
import Mathlib.Data.Finmap
import Mathlib.Data.Finset.Max
import Mathlib.Algebra.BigOperators.Group.Finset.Basic
import Mathlib.Algebra.BigOperators.Ring.Finset
import Mathlib.Algebra.BigOperators.Group.Finset.Piecewise
import Mathlib.Algebra.Order.BigOperators.Group.Finset

/-- A finite map from keys to values. -/
def Table (K V : Type) : Type := Finmap (fun _ : K => V)

namespace Table

variable {K V : Type}

instance : EmptyCollection (Table K V) := ⟨(∅ : Finmap _)⟩

instance : Inhabited (Table K V) := ⟨∅⟩

/-! ## 1. Ordered scans over a key set

A scan that is resumed knows the last key it has seen, and the set may have changed since. `beyond` is what is left
of the set as it is now. -/

section Scan

variable [LinearOrder K]

/-- The least key of a finite set, if there is one. It is what the first row of an ordered range is. -/
def least (s : Finset K) : Option K := if h : s.Nonempty then some (s.min' h) else none

/-- The greatest key of a finite set, if there is one: the last row of an ordered range, read from its end. -/
def greatest (s : Finset K) : Option K := if h : s.Nonempty then some (s.max' h) else none

/-- The part of a key set strictly beyond an exclusive cursor. -/
def beyond (s : Finset K) : Option K → Finset K
  | none => s
  | some c => s.filter (c < ·)

/-- The first key strictly after an exclusive cursor: `range((Excluded(c), Unbounded)).next()`. -/
def nextAfter (s : Finset K) (cursor : Option K) : Option K := least (beyond s cursor)

/-- The first `n` keys in order: `range(..).take(n)`. -/
def firstKeys (s : Finset K) : ℕ → List K
  | 0 => []
  | n + 1 =>
    match least s with
    | none => []
    | some k => k :: firstKeys (s.erase k) n

theorem least_mem {s : Finset K} {k : K} (h : least s = some k) : k ∈ s := by
  unfold least at h
  split at h
  · next hne => cases h; exact Finset.min'_mem s hne
  · cases h

theorem least_le {s : Finset K} {k k' : K} (h : least s = some k) (hk : k' ∈ s) : k ≤ k' := by
  unfold least at h
  split at h
  · cases h; exact Finset.min'_le s k' hk
  · cases h

theorem least_none {s : Finset K} (h : least s = none) : s = ∅ := by
  unfold least at h
  split at h
  · cases h
  · next hne => exact Finset.not_nonempty_iff_eq_empty.mp hne

theorem greatest_mem {s : Finset K} {k : K} (h : greatest s = some k) : k ∈ s := by
  unfold greatest at h
  split at h
  · next hne => cases h; exact Finset.max'_mem s hne
  · cases h

theorem le_greatest {s : Finset K} {k k' : K} (h : greatest s = some k) (hk : k' ∈ s) : k' ≤ k := by
  unfold greatest at h
  split at h
  · cases h; exact Finset.le_max' s k' hk
  · cases h

theorem greatest_none {s : Finset K} (h : greatest s = none) : s = ∅ := by
  unfold greatest at h
  split at h
  · cases h
  · next hne => exact Finset.not_nonempty_iff_eq_empty.mp hne

/-- An element above all others is the greatest one. -/
theorem greatest_eq_some {s : Finset K} {k : K} (hk : k ∈ s) (hle : ∀ k' ∈ s, k' ≤ k) :
    greatest s = some k := by
  unfold greatest
  rw [dif_pos ⟨k, hk⟩]
  exact congrArg some (le_antisymm (hle _ (Finset.max'_mem s _)) (Finset.le_max' s k hk))

@[simp] theorem greatest_empty : greatest (∅ : Finset K) = none := by
  simp [greatest]

/-- The incremental form of a maximum: one more element either replaces it or does not. So a column that keeps the
maximum can be written without a scan of what it is the maximum of. -/
theorem greatest_insert [DecidableEq K] (s : Finset K) (k : K) :
    greatest (Insert.insert k s) = some (match greatest s with
      | some m => max m k
      | none => k) := by
  cases hg : greatest s with
  | none => rw [greatest_none hg]; exact greatest_eq_some (by simp) (by simp)
  | some m =>
    refine greatest_eq_some ?_ ?_
    · rcases le_total m k with h | h
      · simp [max_eq_right h]
      · simp [max_eq_left h, greatest_mem hg]
    · intro k' hk'
      rcases Finset.mem_insert.mp hk' with rfl | hk'
      · exact le_max_right _ _
      · exact (le_greatest hg hk').trans (le_max_left _ _)

theorem mem_of_mem_firstKeys : ∀ (n : ℕ) (s : Finset K) {k : K}, k ∈ firstKeys s n → k ∈ s
  | 0, _, _, h => by simp [firstKeys] at h
  | n + 1, s, k, h => by
    unfold firstKeys at h
    split at h
    · simp at h
    · next k' hk' =>
      rcases List.mem_cons.mp h with rfl | h
      · exact least_mem hk'
      · exact Finset.mem_of_mem_erase (mem_of_mem_firstKeys n _ h)

/-- A batch that is not full is everything there is, which is how a reader that asks for `n` rows knows that it has
come to the end. -/
theorem firstKeys_short : ∀ (n : ℕ) (s : Finset K), (firstKeys s n).length < n →
    ∀ k ∈ s, k ∈ firstKeys s n
  | 0, _, h, _, _ => by simp at h
  | n + 1, s, h, k, hk => by
    unfold firstKeys at h ⊢
    split at h
    · next hnone =>
      rw [least_none hnone] at hk
      simp at hk
    · next k' hk' =>
      by_cases heq : k = k'
      · exact List.mem_cons.mpr (.inl heq)
      · refine List.mem_cons.mpr (.inr (firstKeys_short n _ ?_ k (Finset.mem_erase.mpr ⟨heq, hk⟩)))
        simpa using h

/-- The first keys come in order. -/
theorem firstKeys_sorted : ∀ (n : ℕ) (s : Finset K), (firstKeys s n).Pairwise (· < ·)
  | 0, _ => List.Pairwise.nil
  | n + 1, s => by
    unfold firstKeys
    split
    · exact List.Pairwise.nil
    · next k hk =>
      refine List.pairwise_cons.mpr ⟨fun k' hk' => ?_, firstKeys_sorted n _⟩
      obtain ⟨hne, hmem⟩ := Finset.mem_erase.mp (mem_of_mem_firstKeys n _ hk')
      exact lt_of_le_of_ne (least_le hk hmem) hne.symm

/-- With room for all keys, all are taken. A limit above the number of rows does not show. -/
theorem mem_firstKeys : ∀ (n : ℕ) (s : Finset K), s.card ≤ n → ∀ k ∈ s, k ∈ firstKeys s n
  | 0, s, hcard, k, hk => by
    rw [Finset.card_eq_zero.mp (Nat.le_zero.mp hcard)] at hk
    simp at hk
  | n + 1, s, hcard, k, hk => by
    unfold firstKeys
    split
    · next hnone =>
      rw [least_none hnone] at hk
      simp at hk
    · next k' hk' =>
      by_cases heq : k = k'
      · exact List.mem_cons.mpr (.inl heq)
      · have herase : (s.erase k').card ≤ n := by
          rw [Finset.card_erase_of_mem (least_mem hk')]
          omega
        exact List.mem_cons.mpr (.inr (mem_firstKeys n _ herase k (Finset.mem_erase.mpr ⟨heq, hk⟩)))

theorem mem_beyond {s : Finset K} {c : Option K} {k : K} :
    k ∈ beyond s c ↔ k ∈ s ∧ ∀ c', c = some c' → c' < k := by
  cases c with
  | none => simp [beyond]
  | some c => simp [beyond]

/-- Has a scan with this cursor visited the key, or gone past where it would be? -/
def passed (c : Option K) (k : K) : Bool := c.any (k ≤ ·)

theorem not_passed {c : Option K} {k : K} : passed c k = false ↔ ∀ c', c = some c' → c' < k := by
  cases c with
  | none => simp [passed]
  | some c => simp [passed]

theorem nextAfter_mem {s : Finset K} {c : Option K} {k : K} (h : nextAfter s c = some k) : k ∈ s :=
  (mem_beyond.mp (least_mem h)).1

/-- **At the end** every key has been passed. This is about the keys that are there now: one that was removed is
not spoken of. -/
theorem passed_of_nextAfter_none {s : Finset K} {c : Option K} (h : nextAfter s c = none) {k : K}
    (hk : k ∈ s) : passed c k = true := by
  by_contra hnot
  have hmem : k ∈ beyond s c := mem_beyond.mpr ⟨hk, not_passed.mp (by simpa using hnot)⟩
  rw [least_none h] at hmem
  simp at hmem

/-- **One turn** passes one key of the set, and no other. Counting the keys that were passed therefore counts the
turns. -/
theorem passed_nextAfter {s : Finset K} {c : Option K} {k k' : K} (h : nextAfter s c = some k)
    (hk : k' ∈ s) : passed (some k) k' = true ↔ passed c k' = true ∨ k' = k := by
  have hnew : ∀ c', c = some c' → c' < k := (mem_beyond.mp (least_mem h)).2
  constructor
  · intro hle
    by_cases hold : passed c k' = true
    · exact .inl hold
    · have hmem : k' ∈ beyond s c := mem_beyond.mpr ⟨hk, not_passed.mp (by simpa using hold)⟩
      exact .inr (le_antisymm (by simpa [passed] using hle) (least_le h hmem))
  · rintro (hold | rfl)
    · cases c with
      | none => simp [passed] at hold
      | some c =>
        have hle : k' ≤ c := by simpa [passed] using hold
        simpa [passed] using hle.trans (hnew c rfl).le
    · simp [passed]

end Scan

variable [DecidableEq K]

instance [DecidableEq V] : DecidableEq (Table K V) :=
  inferInstanceAs (DecidableEq (Finmap (fun _ : K => V)))

/-- The row at a key. -/
def get (t : Table K V) (k : K) : Option V := Finmap.lookup k t

/-- Write a row, replacing the previous one. -/
def insert (t : Table K V) (k : K) (v : V) : Table K V := Finmap.insert k v t

/-- Drop a row; nothing happens when there is none. -/
def remove (t : Table K V) (k : K) : Table K V := Finmap.erase k t

/-- Keep the rows whose key passes. -/
def retain (t : Table K V) (q : K → Bool) : Table K V :=
  ⟨t.entries.filter fun row => q row.1, Multiset.nodup_keys.mp (Multiset.nodup_of_le
    (Multiset.map_le_map (Multiset.filter_le ..)) t.nodupKeys.nodup_keys)⟩

/-- Change every row in its place. -/
def mapValues {W : Type} (t : Table K V) (f : K → V → W) : Table K W :=
  ⟨t.entries.map fun row => ⟨row.1, f row.1 row.2⟩, Multiset.nodup_keys.mp (by
    simpa [Multiset.keys, Multiset.map_map, Function.comp_def] using t.nodupKeys.nodup_keys)⟩

/-- The rows of both tables; where both have one, that of the first. -/
def union (t t' : Table K V) : Table K V := (Finmap.instUnion.union t t' : Finmap _)

/-- The keys that hold a row. -/
def keys (t : Table K V) : Finset K := Finmap.keys t

/-! ## 2. Point operations

The simp set of a table. A row that was written is read back, and the others are as they were. -/

/-- Tables are extensional: their rows are all there is, and not the order in which they were written. -/
theorem ext {t t' : Table K V} (h : ∀ k, t.get k = t'.get k) : t = t' := Finmap.ext_lookup h

@[simp] theorem get_empty (k : K) : (∅ : Table K V).get k = none := Finmap.lookup_empty k

@[simp] theorem get_insert_self (t : Table K V) (k : K) (v : V) : (t.insert k v).get k = some v :=
  Finmap.lookup_insert t

theorem get_insert_of_ne (t : Table K V) {k k' : K} (v : V) (h : k' ≠ k) :
    (t.insert k v).get k' = t.get k' := Finmap.lookup_insert_of_ne t h

@[grind =] theorem get_insert (t : Table K V) (k k' : K) (v : V) :
    (t.insert k v).get k' = if k' = k then some v else t.get k' := by
  split
  · next h => rw [h, get_insert_self]
  · next h => exact get_insert_of_ne t v h

@[simp] theorem get_remove_self (t : Table K V) (k : K) : (t.remove k).get k = none :=
  Finmap.lookup_erase k t

theorem get_remove_of_ne (t : Table K V) {k k' : K} (h : k' ≠ k) :
    (t.remove k).get k' = t.get k' := Finmap.lookup_erase_ne h

@[grind =] theorem get_remove (t : Table K V) (k k' : K) :
    (t.remove k).get k' = if k' = k then none else t.get k' := by
  split
  · next h => rw [h, get_remove_self]
  · next h => exact get_remove_of_ne t h

/-- What is left after a removal was there. -/
theorem get_of_remove {t : Table K V} {k k' : K} {v : V} (h : (t.remove k).get k' = some v) :
    t.get k' = some v := by
  rw [get_remove] at h
  split at h
  · cases h
  · exact h

/-- A row under a new key leaves those that are there: the new key is not one of theirs. -/
theorem get_insert_new {t : Table K V} {k k' : K} {v v' : V} (h : t.get k = none)
    (hv : t.get k' = some v') : (t.insert k v).get k' = some v' := by
  rw [get_insert_of_ne, hv]
  rintro rfl
  rw [h] at hv
  cases hv

/-- The two writes, as changes of the lookup function. -/
theorem get_insert_eq (t : Table K V) (k : K) (v : V) :
    (t.insert k v).get = Function.update t.get k (some v) := by
  funext k'
  rw [get_insert, Function.update_apply]

theorem get_remove_eq (t : Table K V) (k : K) :
    (t.remove k).get = Function.update t.get k none := by
  funext k'
  rw [get_remove, Function.update_apply]

/-- Writing back the row that is already there changes nothing. -/
theorem insert_get_self {t : Table K V} {k : K} {v : V} (h : t.get k = some v) :
    t.insert k v = t := by
  refine ext fun k' => ?_
  rw [get_insert]
  split
  · next hk => rw [hk, h]
  · rfl

/-- There is nothing to remove. -/
theorem remove_absent {t : Table K V} {k : K} (h : t.get k = none) : t.remove k = t := by
  refine ext fun k' => ?_
  rw [get_remove]
  split
  · next hk => rw [hk, h]
  · rfl

/-- Removing what was just added. -/
theorem remove_insert_absent {t : Table K V} {k : K} (h : t.get k = none) (v : V) :
    (t.insert k v).remove k = t := by
  refine ext fun k' => ?_
  rw [get_remove]
  split
  · next hk => rw [hk, h]
  · next hk => exact get_insert_of_ne _ _ hk

/-- Of two writes to one key the second wins. -/
@[simp] theorem insert_insert (t : Table K V) (k : K) (v w : V) :
    (t.insert k v).insert k w = t.insert k w :=
  ext fun k' => by simp only [get_insert]; split <;> rfl

theorem get_retain (t : Table K V) (q : K → Bool) (k : K) :
    (t.retain q).get k = if q k then t.get k else none := by
  refine Option.ext fun v => ?_
  have hmem : (t.retain q).get k = some v ↔ q k = true ∧ t.get k = some v := by
    have hrow : (t.retain q).get k = some v ↔ ⟨k, v⟩ ∈ (t.retain q).entries :=
      Finmap.mem_lookup_iff
    have hold : t.get k = some v ↔ ⟨k, v⟩ ∈ t.entries := Finmap.mem_lookup_iff
    rw [hrow, hold, and_comm]
    exact Multiset.mem_filter
  rw [hmem]
  cases q k with
  | false => simp
  | true => simp

theorem get_union (t t' : Table K V) (k : K) : (t.union t').get k = (t.get k).or (t'.get k) := by
  cases h : t.get k with
  | none => exact Finmap.lookup_union_right (Finmap.lookup_eq_none.mp h)
  | some v =>
    have hrow : Finmap.lookup k t = some v := h
    exact (Finmap.lookup_union_left (Finmap.mem_iff.mpr ⟨v, hrow⟩)).trans h

theorem get_mapValues {W : Type} (t : Table K V) (f : K → V → W) (k : K) :
    (t.mapValues f).get k = (t.get k).map (f k) := by
  refine Option.ext fun w => ?_
  have hrow : (t.mapValues f).get k = some w ↔ ⟨k, w⟩ ∈ (t.mapValues f).entries :=
    Finmap.mem_lookup_iff
  have hold : ∀ v, t.get k = some v ↔ ⟨k, v⟩ ∈ t.entries := fun _ => Finmap.mem_lookup_iff
  rw [hrow, Option.map_eq_some_iff]
  simp only [hold]
  constructor
  · intro h
    obtain ⟨⟨k', v⟩, hv, heq⟩ := Multiset.mem_map.mp h
    cases heq
    exact ⟨v, hv, rfl⟩
  · rintro ⟨v, hv, rfl⟩
    exact Multiset.mem_map.mpr ⟨⟨k, v⟩, hv, rfl⟩

theorem mem_keys {t : Table K V} {k : K} : k ∈ t.keys ↔ ∃ v, t.get k = some v :=
  Finmap.mem_keys.trans Finmap.mem_iff

theorem mem_keys_of_get {t : Table K V} {k : K} {v : V} (h : t.get k = some v) : k ∈ t.keys :=
  mem_keys.mpr ⟨v, h⟩

theorem keys_insert (t : Table K V) (k : K) (v : V) : (t.insert k v).keys = Insert.insert k t.keys := by
  ext k'
  rw [Finset.mem_insert, mem_keys, mem_keys]
  simp only [get_insert]
  by_cases h : k' = k <;> simp [h]

/-! ## 3. Weighted sums over the rows

A weight depends on the key and the row. Operations change one row, and the lemmas say by how much the sum moves. -/

section Sum

/-- The sum of a weight over all rows. -/
def sum (t : Table K V) (w : K → V → ℕ) : ℕ := ∑ k ∈ t.keys, (t.get k).elim 0 (w k)

@[simp] theorem sum_empty (w : K → V → ℕ) : (∅ : Table K V).sum w = 0 := rfl

/-- Weights that agree on the rows have the same sum. -/
theorem sum_congr {t : Table K V} {w w' : K → V → ℕ}
    (h : ∀ k v, t.get k = some v → w k v = w' k v) : t.sum w = t.sum w' := by
  refine Finset.sum_congr rfl fun k hk => ?_
  obtain ⟨v, hv⟩ := mem_keys.mp hk
  rw [hv]
  exact h k v hv

/-- A greater weight has a greater sum. -/
theorem sum_le_sum {t : Table K V} {w w' : K → V → ℕ}
    (h : ∀ k v, t.get k = some v → w k v ≤ w' k v) : t.sum w ≤ t.sum w' := by
  refine Finset.sum_le_sum fun k hk => ?_
  obtain ⟨v, hv⟩ := mem_keys.mp hk
  rw [hv]
  exact h k v hv

/-- A factor of every weight is one of the sum. -/
theorem mul_sum (t : Table K V) (n : ℕ) (w : K → V → ℕ) :
    n * t.sum w = t.sum fun k v => n * w k v := by
  rw [sum, sum, Finset.mul_sum]
  refine Finset.sum_congr rfl fun k hk => ?_
  obtain ⟨v, hv⟩ := mem_keys.mp hk
  rw [hv]
  rfl

/-- Rows without weight have no sum. -/
theorem sum_eq_zero {t : Table K V} {w : K → V → ℕ} (h : ∀ k v, t.get k = some v → w k v = 0) :
    t.sum w = 0 := by
  refine Finset.sum_eq_zero fun k hk => ?_
  obtain ⟨v, hv⟩ := mem_keys.mp hk
  rw [hv]
  exact h k v hv

/-- **A fresh row adds its weight**, whatever happened to the weight of that key before. -/
theorem sum_insert_new {t : Table K V} {k : K} {v : V} (h : t.get k = none) (w : K → V → ℕ) :
    (t.insert k v).sum w = w k v + t.sum w := by
  have hk : k ∉ t.keys := fun hm => by
    obtain ⟨v', hv'⟩ := mem_keys.mp hm
    rw [h] at hv'; cases hv'
  rw [sum, keys_insert, Finset.sum_insert hk, get_insert_self]
  refine congrArg (w k v + ·) (Finset.sum_congr rfl fun k' hk' => ?_)
  have hne : k' ≠ k := fun e => hk (e ▸ hk')
  rw [get_insert_of_ne t v hne]

/-- A sum splits off the weight of any one of its rows. -/
theorem sum_split {t : Table K V} {k : K} {v : V} (h : t.get k = some v) (w : K → V → ℕ) :
    t.sum w = w k v + ∑ k' ∈ t.keys.erase k, (t.get k').elim 0 (w k') := by
  rw [sum, ← Finset.add_sum_erase _ _ (mem_keys_of_get h), h]
  rfl

/-- **Reweighing one row** moves the sum by the difference of its two weights. -/
theorem sum_reweigh {t : Table K V} {k : K} {v : V} (w w' : K → V → ℕ) (h : t.get k = some v)
    (hoff : ∀ k' v', k' ≠ k → t.get k' = some v' → w k' v' = w' k' v') :
    t.sum w + w' k v = t.sum w' + w k v := by
  rw [sum_split h w, sum_split h w']
  have hrest : ∑ k' ∈ t.keys.erase k, (t.get k').elim 0 (w k')
      = ∑ k' ∈ t.keys.erase k, (t.get k').elim 0 (w' k') := by
    refine Finset.sum_congr rfl fun k' hk' => ?_
    obtain ⟨hne, hk'⟩ := Finset.mem_erase.mp hk'
    obtain ⟨v', hv'⟩ := mem_keys.mp hk'
    rw [hv']
    exact hoff k' v' hne hv'
  rw [hrest]
  omega

/-- **A row goes**, and its weight with it. -/
theorem sum_remove {t : Table K V} {k : K} {v : V} (h : t.get k = some v) (w : K → V → ℕ) :
    (t.remove k).sum w + w k v = t.sum w := by
  have hback : (t.remove k).insert k v = t := by
    refine ext fun k' => ?_
    rw [get_insert, get_remove]
    split
    · next hk => rw [hk, h]
    · rfl
  have hsum := sum_insert_new (t := t.remove k) (v := v) (get_remove_self t k) w
  rw [hback] at hsum
  omega

/-- **A row is replaced.** -/
theorem sum_replace {t : Table K V} {k : K} {v : V} (h : t.get k = some v) (v' : V)
    (w : K → V → ℕ) : (t.insert k v').sum w + w k v = t.sum w + w k v' := by
  have hsame : t.insert k v' = (t.remove k).insert k v' := by
    refine ext fun k' => ?_
    rw [get_insert, get_insert, get_remove]
    split
    · rfl
    · rfl
  have hnew := sum_insert_new (t := t.remove k) (v := v') (get_remove_self t k) w
  have hold := sum_remove h w
  rw [hsame]
  omega

/-- A row's own weight never exceeds the sum. -/
theorem weight_le_sum {t : Table K V} {k : K} {v : V} (h : t.get k = some v) (w : K → V → ℕ) :
    w k v ≤ t.sum w := by
  rw [sum_split h w]
  exact Nat.le_add_right _ _

/-! Rows that pass a test are counted. -/

/-- The number of rows that pass. -/
def count (t : Table K V) (q : K → V → Bool) : ℕ := (t.keys.filter fun k => (t.get k).any (q k)).card

theorem count_eq_sum (t : Table K V) (q : K → V → Bool) :
    t.count q = t.sum fun k v => if q k v then 1 else 0 := by
  rw [count, Finset.card_filter]
  refine Finset.sum_congr rfl fun k hk => ?_
  obtain ⟨v, hv⟩ := mem_keys.mp hk
  rw [hv]
  rfl

@[simp] theorem count_empty (q : K → V → Bool) : (∅ : Table K V).count q = 0 := rfl

theorem count_insert_new {t : Table K V} {k : K} {v : V} (h : t.get k = none) (q : K → V → Bool) :
    (t.insert k v).count q = (if q k v then 1 else 0) + t.count q := by
  rw [count_eq_sum, count_eq_sum, sum_insert_new h]

/-- **The test of one row changes.** -/
theorem count_change {t : Table K V} {k : K} {v : V} {q q' : K → V → Bool} (h : t.get k = some v)
    (hoff : ∀ k' v', k' ≠ k → t.get k' = some v' → q k' v' = q' k' v') {b c : Bool}
    (hq : q k v = b) (hq' : q' k v = c) :
    t.count q + (if c then 1 else 0) = t.count q' + if b then 1 else 0 := by
  subst hq hq'
  rw [count_eq_sum, count_eq_sum]
  refine sum_reweigh (fun k v => if q k v then 1 else 0) (fun k v => if q' k v then 1 else 0) h
    fun k' v' hne hv' => ?_
  rw [hoff k' v' hne hv']

/-- The rows that pass `r` pass `q` as well or do not. -/
theorem count_split (t : Table K V) (q r : K → V → Bool) :
    t.count (fun k v => q k v && r k v) + t.count (fun k v => !q k v && r k v) = t.count r := by
  rw [count_eq_sum, count_eq_sum, count_eq_sum, sum, sum, sum, ← Finset.sum_add_distrib]
  refine Finset.sum_congr rfl fun k _ => ?_
  cases t.get k with
  | none => rfl
  | some v => cases hq : q k v <;> simp [hq]

theorem count_true (t : Table K V) : t.count (fun _ _ => true) = t.keys.card := by
  rw [count]
  refine congrArg Finset.card (Finset.filter_true_of_mem fun k hk => ?_)
  obtain ⟨v, hv⟩ := mem_keys.mp hk
  rw [hv]
  rfl

end Sum

end Table
