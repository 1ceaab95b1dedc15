/-
# Derived indexes

An index is maintained row by row while its specification is about a family of sources: every
source that is present contributes at most one row.  This file is the arithmetic of that pattern,
over arbitrary keys, sources and rows.

* `Contributed s rowOf rows`: the rows are exactly those of the present sources.  A row that
  remembers its source (`Keyed`) can be taken back without touching the rest.
* `Tallied bucket rows count`: a counter for each bucket, kept next to the rows.
* `Inverse f bwd`: a table that finds the source of a value, and `Paired fwd bwd`: two tables that
  are each other's inverse.
* `sum_insert_update`: a running sum over the sources, when one of them changes.

Each has one rule for a source that appears and one for a source that goes.
-/
import Rostra.Lib.Table
import Mathlib.Logic.Function.Basic
import Mathlib.Data.Finset.Option

namespace Index

variable {K X R B : Type}

/-! ## 1. Rows of a family of sources

A row that remembers its source cannot be contributed twice. -/

/-- The rows are those of the present sources. -/
def Contributed (s : K → Option X) (rowOf : K → X → Option R) (rows : Finset R) : Prop :=
  ∀ r, r ∈ rows ↔ ∃ k x, s k = some x ∧ rowOf k x = some r

/-- A row tells whose it is. -/
def Keyed (rowOf : K → X → Option R) : Prop :=
  ∀ k x k' x' r, rowOf k x = some r → rowOf k' x' = some r → k = k'

theorem contributed_empty (rowOf : K → X → Option R) :
    Contributed (fun _ => none) rowOf ∅ := by
  intro r
  simp

/-- The row of a present source is there. -/
theorem Contributed.mem {s : K → Option X} {rowOf : K → X → Option R} {rows : Finset R}
    (h : Contributed s rowOf rows) {k : K} {x : X} (hk : s k = some x) {r : R}
    (hr : rowOf k x = some r) : r ∈ rows :=
  (h r).mpr ⟨k, x, hk, hr⟩

/-- No row belongs to an absent source. -/
theorem Contributed.not_mem {s : K → Option X} {rowOf : K → X → Option R} {rows : Finset R}
    (h : Contributed s rowOf rows) (hkey : Keyed rowOf) {k : K} (hk : s k = none) {x : X} {r : R}
    (hr : rowOf k x = some r) : r ∉ rows := by
  intro hmem
  obtain ⟨k', x', hk', hr'⟩ := (h r).mp hmem
  rw [hkey k x k' x' r hr hr', hk'] at hk
  cases hk

section Change

variable [DecidableEq K] [DecidableEq R]

omit [DecidableEq K] in
/-- A row that was new is taken out again. -/
theorem add_then_remove {rows : Finset R} {row : Option R} (hnew : ∀ r, row = some r → r ∉ rows) :
    (rows ∪ row.toFinset) \ row.toFinset = rows := by
  refine Finset.union_sdiff_cancel_right (Finset.disjoint_right.mpr fun r hr => ?_)
  exact hnew r (by simpa using hr)

/-- **A source appears**: its row is added. -/
theorem Contributed.add {s : K → Option X} {rowOf : K → X → Option R} {rows : Finset R}
    (h : Contributed s rowOf rows) {k : K} (hk : s k = none) (x : X) :
    Contributed (Function.update s k (some x)) rowOf (rows ∪ (rowOf k x).toFinset) := by
  intro r
  rw [Finset.mem_union, Option.mem_toFinset, Option.mem_def, h r]
  constructor
  · rintro (⟨k', x', hk', hr⟩ | hr)
    · have hne : k' ≠ k := by
        rintro rfl
        rw [hk] at hk'
        cases hk'
      exact ⟨k', x', by rw [Function.update_of_ne hne]; exact hk', hr⟩
    · exact ⟨k, x, Function.update_self .., hr⟩
  · rintro ⟨k', x', hk', hr⟩
    by_cases hkk : k' = k
    · subst hkk
      rw [Function.update_self] at hk'
      cases hk'
      exact .inr hr
    · rw [Function.update_of_ne hkk] at hk'
      exact .inl ⟨k', x', hk', hr⟩

/-- **A source goes**: its row is taken out. -/
theorem Contributed.remove {s : K → Option X} {rowOf : K → X → Option R} {rows : Finset R}
    (h : Contributed s rowOf rows) (hkey : Keyed rowOf) {k : K} {x : X} (hk : s k = some x) :
    Contributed (Function.update s k none) rowOf (rows \ (rowOf k x).toFinset) := by
  intro r
  rw [Finset.mem_sdiff, Option.mem_toFinset, Option.mem_def, h r]
  constructor
  · rintro ⟨⟨k', x', hk', hr⟩, hno⟩
    have hne : k' ≠ k := by
      rintro rfl
      rw [hk] at hk'
      cases hk'
      exact hno hr
    exact ⟨k', x', by rw [Function.update_of_ne hne]; exact hk', hr⟩
  · rintro ⟨k', x', hk', hr⟩
    have hne : k' ≠ k := by
      rintro rfl
      rw [Function.update_self] at hk'
      cases hk'
    rw [Function.update_of_ne hne] at hk'
    exact ⟨⟨k', x', hk', hr⟩, fun hr' => hne (hkey k' x' k x r hr hr')⟩

/-- The same for a source that is a row of a table. -/
theorem Contributed.insertRow {t : Table K X} {rowOf : K → X → Option R} {rows : Finset R}
    (h : Contributed t.get rowOf rows) {k : K} (hk : t.get k = none) {x : X} {r : R}
    (hr : rowOf k x = some r) : Contributed (t.insert k x).get rowOf (insert r rows) := by
  rw [Table.get_insert_eq, Finset.insert_eq, Finset.union_comm, ← Option.toFinset_some, ← hr]
  exact h.add hk x

theorem Contributed.removeRow {t : Table K X} {rowOf : K → X → Option R} {rows : Finset R}
    (h : Contributed t.get rowOf rows) (hkey : Keyed rowOf) {k : K} {x : X}
    (hk : t.get k = some x) {r : R} (hr : rowOf k x = some r) :
    Contributed (t.remove k).get rowOf (rows.erase r) := by
  rw [Table.get_remove_eq, Finset.erase_eq, ← Option.toFinset_some, ← hr]
  exact h.remove hkey hk

/-- **A source changes**: its old row is taken out, its new one added. -/
theorem Contributed.replaceRow {t : Table K X} {rowOf : K → X → Option R} {rows : Finset R}
    (h : Contributed t.get rowOf rows) (hkey : Keyed rowOf) {k : K} {x x' : X}
    (hk : t.get k = some x) {r r' : R} (hr : rowOf k x = some r) (hr' : rowOf k x' = some r') :
    Contributed (t.insert k x').get rowOf (insert r' (rows.erase r)) := by
  have hget : ((t.remove k).insert k x').get = (t.insert k x').get := by
    rw [Table.get_insert_eq, Table.get_insert_eq, Table.get_remove_eq, Function.update_idem]
  rw [← hget]
  exact (h.removeRow hkey hk hr).insertRow (Table.get_remove_self ..) hr'

end Change

/-! ## 2. Counters next to the rows

The counter of a bucket is the number of its rows. It may be missing as long as there are none. -/

section Tally

variable [DecidableEq R] [DecidableEq B] {bucket : R → B}

/-- The number kept for a bucket is the number of its rows. -/
def Tallied (bucket : R → B) (rows : Finset R) (count : B → ℕ) : Prop :=
  ∀ b, count b = (rows.filter fun r => bucket r = b).card

/-- How much a row that may be there weighs in a bucket. -/
def weight (bucket : R → B) (row : Option R) (b : B) : ℕ :=
  if row.map bucket = some b then 1 else 0

theorem card_filter_add (bucket : R → B) {rows : Finset R} {row : Option R}
    (hnew : ∀ r, row = some r → r ∉ rows) (b : B) : ((rows ∪ row.toFinset).filter fun r => bucket r = b).card =
      (rows.filter fun r => bucket r = b).card + weight bucket row b := by
  cases row with
  | none => simp [weight]
  | some r =>
    have hr := hnew r rfl
    rw [Option.toFinset_some, Finset.union_comm, ← Finset.insert_eq, Finset.filter_insert]
    by_cases hb : bucket r = b
    · rw [if_pos hb, Finset.card_insert_of_notMem (by simp [hr])]
      simp [weight, hb]
    · rw [if_neg hb]
      simp [weight, hb]

/-- Taking a row out lowers its bucket by its weight at most. -/
theorem card_filter_remove (rows : Finset R) (row : Option R) (b : B) :
    (rows.filter fun r => bucket r = b).card ≤
      ((rows \ row.toFinset).filter fun r => bucket r = b).card + weight bucket row b := by
  have hno : ∀ r, row = some r → r ∉ rows \ row.toFinset := fun r hr hmem => by simp [hr] at hmem
  have hback := card_filter_add bucket hno b
  rw [← hback]
  refine Finset.card_le_card (Finset.filter_subset_filter _ fun r hr => ?_)
  rw [Finset.sdiff_union_self_eq_union]
  exact Finset.mem_union_left _ hr

theorem Tallied.add {rows : Finset R} {row : Option R} {count count' : B → ℕ}
    (h : Tallied bucket rows count) (hnew : ∀ r, row = some r → r ∉ rows)
    (hcount : ∀ b, count' b = count b + weight bucket row b) :
    Tallied bucket (rows ∪ row.toFinset) count' := by
  intro b
  rw [hcount, h b, card_filter_add bucket hnew]

/-- Taking a row out and counting down undo each other's difference. -/
theorem Tallied.remove {rows : Finset R} {row : Option R} {count count' : B → ℕ}
    (h : Tallied bucket rows count) (hold : ∀ r, row = some r → r ∈ rows)
    (hcount : ∀ b, count' b + weight bucket row b = count b) :
    Tallied bucket (rows \ row.toFinset) count' := by
  have hsub : row.toFinset ⊆ rows := by
    intro r hr
    exact hold r (by simpa using hr)
  intro b
  have hno : ∀ r, row = some r → r ∉ rows \ row.toFinset := fun r hr hmem => by simp [hr] at hmem
  have hback := card_filter_add bucket hno b
  rw [Finset.sdiff_union_of_subset hsub, ← h b, ← hcount b] at hback
  omega

omit [DecidableEq R] in
/-- A row that is there has been counted. -/
theorem Tallied.weight_le {rows : Finset R} {row : Option R} {count : B → ℕ}
    (h : Tallied bucket rows count) (hold : ∀ r, row = some r → r ∈ rows) (b : B) :
    weight bucket row b ≤ count b := by
  cases row with
  | none => simp [weight]
  | some r =>
    by_cases hb : bucket r = b
    · rw [h b]
      have hpos : 0 < (rows.filter fun r => bucket r = b).card :=
        Finset.card_pos.mpr ⟨r, by simp [hold r rfl, hb]⟩
      simpa [weight, hb] using hpos
    · simp [weight, hb]

end Tally

/-! ## 3. Inverse tables

Two tables that are kept in step by hand, and what each pair of writes does to them. -/

section Pairs

variable [DecidableEq K] [DecidableEq X]

/-- The table finds the source of every value of `f`, and nothing else. -/
def Inverse (f : K → Option X) (bwd : Table X K) : Prop := ∀ k x, f k = some x ↔ bwd.get x = some k

/-- **A source gets a value** that no other source has. -/
theorem Inverse.set {f : K → Option X} {bwd : Table X K} (h : Inverse f bwd) {k : K} {x : X}
    (hk : f k = none) (hx : bwd.get x = none) :
    Inverse (Function.update f k (some x)) (bwd.insert x k) := by
  intro k' x'
  by_cases hkk : k' = k
  · subst hkk
    rw [Function.update_self]
    by_cases hxx : x' = x
    · simp [hxx]
    · rw [Table.get_insert_of_ne _ _ hxx, ← h, hk]
      simp [Ne.symm hxx]
  · rw [Function.update_of_ne hkk]
    by_cases hxx : x' = x
    · subst hxx
      rw [Table.get_insert_self, h, hx]
      simp [Ne.symm hkk]
    · rw [Table.get_insert_of_ne _ _ hxx]
      exact h k' x'

/-- **A source loses its value.** -/
theorem Inverse.clear {f : K → Option X} {bwd : Table X K} (h : Inverse f bwd) {k : K} {x : X}
    (hk : f k = some x) : Inverse (Function.update f k none) (bwd.remove x) := by
  intro k' x'
  by_cases hkk : k' = k
  · subst hkk
    rw [Function.update_self]
    by_cases hxx : x' = x
    · simp [hxx]
    · rw [Table.get_remove_of_ne _ hxx, ← h, hk]
      simp [Ne.symm hxx]
  · rw [Function.update_of_ne hkk]
    by_cases hxx : x' = x
    · subst hxx
      rw [Table.get_remove_self, h, (h k x').mp hk]
      simp [Ne.symm hkk]
    · rw [Table.get_remove_of_ne _ hxx]
      exact h k' x'

/-- Each table is the inverse of the other. -/
def Paired (fwd : Table K X) (bwd : Table X K) : Prop :=
  ∀ k x, fwd.get k = some x ↔ bwd.get x = some k

theorem Paired.insert {fwd : Table K X} {bwd : Table X K} (h : Paired fwd bwd) {k : K} {x : X}
    (hk : fwd.get k = none) (hx : bwd.get x = none) :
    Paired (fwd.insert k x) (bwd.insert x k) := by
  have hset : Inverse (Function.update fwd.get k (some x)) (bwd.insert x k) :=
    Inverse.set h hk hx
  rwa [← Table.get_insert_eq] at hset

theorem Paired.remove {fwd : Table K X} {bwd : Table X K} (h : Paired fwd bwd) {k : K} {x : X}
    (hk : fwd.get k = some x) : Paired (fwd.remove k) (bwd.remove x) := by
  have hclear : Inverse (Function.update fwd.get k none) (bwd.remove x) := Inverse.clear h hk
  rwa [← Table.get_remove_eq] at hclear

/-- The two tables have as many rows. -/
theorem Paired.card_keys {fwd : Table K X} {bwd : Table X K} (h : Paired fwd bwd) :
    fwd.keys.card = bwd.keys.card := by
  have himage : (fwd.keys.image fwd.get).card = fwd.keys.card := by
    refine Finset.card_image_of_injOn fun k hk k' _ heq => ?_
    obtain ⟨x, hx⟩ := Table.mem_keys.mp hk
    have hx' : fwd.get k' = some x := heq.symm.trans hx
    exact Option.some.inj (((h k x).mp hx).symm.trans ((h k' x).mp hx'))
  have hsome : fwd.keys.image fwd.get = bwd.keys.map .some := by
    ext o
    rw [Finset.mem_image, Finset.mem_map]
    constructor
    · rintro ⟨k, hk, rfl⟩
      obtain ⟨x, hx⟩ := Table.mem_keys.mp hk
      exact ⟨x, Table.mem_keys_of_get ((h k x).mp hx), hx.symm⟩
    · rintro ⟨x, hx, rfl⟩
      obtain ⟨k, hk⟩ := Table.mem_keys.mp hx
      exact ⟨k, Table.mem_keys_of_get ((h k x).mpr hk), (h k x).mpr hk⟩
  rw [← himage, hsome, Finset.card_map]

end Pairs

/-! ## 4. Running sums

The sum over a finite set of sources, when one of them changes its contribution. -/

/-- One summand is replaced; a source that is not there yet contributed nothing. -/
theorem sum_insert_update [DecidableEq K] (s : Finset K) (g : K → ℤ) (k : K) (x : ℤ)
    (h : k ∉ s → g k = 0) :
    ∑ j ∈ insert k s, Function.update g k x j = ∑ j ∈ s, g j - g k + x := by
  have hsum : ∑ j ∈ insert k s, Function.update g k x j = x + ∑ j ∈ s.erase k, g j := by
    rw [← Finset.insert_erase (Finset.mem_insert_self k s), Finset.sum_insert (by simp),
      Function.update_self, Finset.erase_insert_eq_erase]
    refine congrArg (x + ·) (Finset.sum_congr rfl fun j hj => ?_)
    exact Function.update_of_ne (Finset.ne_of_mem_erase hj) x g
  rw [hsum]
  by_cases hk : k ∈ s
  · rw [← Finset.add_sum_erase s g hk]
    omega
  · rw [Finset.erase_eq_of_notMem hk, h hk]
    omega

end Index
