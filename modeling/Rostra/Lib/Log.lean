/-
# Append-only logs

A log is a table from sequence numbers to values that is only ever written behind its last row.  It
is read in pages from a cursor, while writers go on between the pages.

* `Dense t n`: the sequence numbers are `0 .. n - 1`.
* `Extends t t'`: every row of `t` is a row of `t'`.
* `between t a b`: the values from `a` up to, not including, `b`.  Adjacent stretches concatenate,
  and a stretch that is complete never changes again.
-/
import Rostra.Lib.Table
import Mathlib.Data.Finset.Sort

local instance keyTrans {K : Type} [LinearOrder K] : IsTrans K fun k l => k ≤ l := inferInstance

local instance keyAntisymm {K : Type} [LinearOrder K] : Std.Antisymm fun k l : K => k ≤ l := inferInstance

/-- The rows from a key on, in the order of the keys. -/
def Table.rowsFrom {K V : Type} [LinearOrder K] (t : Table K V) (start : K) : List (K × V) :=
  ((t.keys.filter (start ≤ ·)).sort (· ≤ ·)).filterMap fun k => (t.get k).map (k, ·)

namespace Log

variable {V : Type}

/-! ## 1. Dense keys

The keys are a front part of the natural numbers. -/

/-- The sequence numbers are exactly those below `n`, so that `n` is both the length of the log and the key of its
next row. -/
def Dense (t : Table ℕ V) (n : ℕ) : Prop := t.keys = Finset.range n

theorem dense_empty : Dense (∅ : Table ℕ V) 0 := by
  unfold Dense
  ext k
  simp [Table.mem_keys]

theorem Dense.isSome {t : Table ℕ V} {n : ℕ} (h : Dense t n) {k : ℕ} :
    (∃ v, t.get k = some v) ↔ k < n := by
  rw [← Table.mem_keys, h, Finset.mem_range]

/-- **A row behind the last one** keeps the log dense. -/
theorem Dense.append {t : Table ℕ V} {n : ℕ} (h : Dense t n) (v : V) :
    Dense (t.insert n v) (n + 1) := by
  unfold Dense
  rw [Table.keys_insert, h, Finset.range_add_one]

theorem Dense.rowsFrom_end {t : Table ℕ V} {n c : ℕ} (h : Dense t n) (hc : n ≤ c) :
    t.rowsFrom c = [] := by
  unfold Table.rowsFrom
  have hnone : t.keys.filter (c ≤ ·) = ∅ := by
    rw [h, Finset.filter_eq_empty_iff]
    intro k hk
    have := Finset.mem_range.mp hk
    omega
  rw [hnone, Finset.sort_empty, List.filterMap_nil]

/-- Reading from a cursor starts with the row of the cursor, and goes on behind it: the step of every paged read.
-/
theorem Dense.rowsFrom_cons {t : Table ℕ V} {n c : ℕ} (h : Dense t n) {v : V}
    (hv : t.get c = some v) : t.rowsFrom c = (c, v) :: t.rowsFrom (c + 1) := by
  have hc : c < n := h.isSome.mp ⟨v, hv⟩
  have hsplit : t.keys.filter (c ≤ ·) = insert c (t.keys.filter (c + 1 ≤ ·)) := by
    rw [h]
    ext k
    simp only [Finset.mem_filter, Finset.mem_range, Finset.mem_insert]
    omega
  unfold Table.rowsFrom
  rw [hsplit, Finset.sort_insert, List.filterMap_cons, hv]
  · rfl
  · intro k hk
    have := (Finset.mem_filter.mp hk).2
    omega
  · intro hmem
    have := (Finset.mem_filter.mp hmem).2
    omega

/-! ## 2. Growth

A log may only be written behind its end. -/

/-- Every row stays as it is. New rows may have been written, and a reader between two pages does not mind them. -/
def Extends (t t' : Table ℕ V) : Prop := ∀ k v, t.get k = some v → t'.get k = some v

theorem Extends.refl (t : Table ℕ V) : Extends t t := fun _ _ h => h

theorem Extends.trans {t t' t'' : Table ℕ V} (h : Extends t t') (h' : Extends t' t'') :
    Extends t t'' := fun k v hv => h' k v (h k v hv)

theorem Dense.append_extends {t : Table ℕ V} {n : ℕ} (h : Dense t n) (v : V) :
    Extends t (t.insert n v) := by
  intro k w hw
  have hk := h.isSome.mp ⟨w, hw⟩
  rw [Table.get_insert_of_ne _ _ (by omega)]
  exact hw

theorem Extends.length_le {t t' : Table ℕ V} {n n' : ℕ} (h : Extends t t') (hd : Dense t n)
    (hd' : Dense t' n') : n ≤ n' := by
  by_contra hlt
  obtain ⟨v, hv⟩ := hd.isSome.mpr (by omega : n' < n)
  have := hd'.isSome.mp ⟨v, h n' v hv⟩
  omega

/-! ## 3. Stretches

The values of adjacent keys, in the order of the keys. -/

/-- The values from `a` up to `b`. -/
def between (t : Table ℕ V) (a b : ℕ) : List V := (List.range' a (b - a)).filterMap t.get

theorem between_self (t : Table ℕ V) (a : ℕ) : between t a a = [] := by
  simp [between]

theorem between_cons {t : Table ℕ V} {a b : ℕ} (hab : a < b) {v : V} (hv : t.get a = some v) :
    between t a b = v :: between t (a + 1) b := by
  unfold between
  obtain ⟨m, rfl⟩ : ∃ m, b = a + 1 + m := ⟨b - (a + 1), by omega⟩
  rw [show a + 1 + m - a = m + 1 by omega, show a + 1 + m - (a + 1) = m by omega, List.range'_succ,
    List.filterMap_cons, hv]

/-- **Adjacent stretches concatenate.** Two pages, the second from where the first one ended, are one longer page.
-/
theorem between_append (t : Table ℕ V) {a b c : ℕ} (hab : a ≤ b) (hbc : b ≤ c) :
    between t a b ++ between t b c = between t a c := by
  unfold between
  rw [← List.filterMap_append]
  obtain ⟨m, rfl⟩ : ∃ m, b = a + m := ⟨b - a, by omega⟩
  obtain ⟨k, rfl⟩ : ∃ k, c = a + m + k := ⟨c - (a + m), by omega⟩
  rw [show a + m - a = m by omega, show a + m + k - (a + m) = k by omega,
    show a + m + k - a = m + k by omega, List.range'_append_1]

/-- **What was read stays as it was read.** A stretch that lies within the old log is the same stretch of the new
one. -/
theorem Extends.between {t t' : Table ℕ V} {n : ℕ} (h : Extends t t') (hd : Dense t n) {a b : ℕ}
    (hb : b ≤ n) : Log.between t' a b = Log.between t a b := by
  unfold Log.between
  refine List.filterMap_congr fun k hk => ?_
  have hlt := List.mem_range'_1.mp hk
  obtain ⟨v, hv⟩ := hd.isSome.mpr (by omega : k < n)
  rw [hv, h k v hv]

end Log
