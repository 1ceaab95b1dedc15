/-
# Pagination of tables

`paginate.rs`: the pages of a table, forwards and backwards, of all of it or of the keys of a partition.
The cursor is the key of the next row that was not read.

* Section 1: the four functions.
* Section 2: a caller that follows the cursors sees every row of its range once, in order.

The filter is generic in its monad, `Except` for the callers in this database.  Keys are stored so that the
order of the table is that of the keys.
-/
import Rostra.Lib.Cursor

namespace Rostra.Db

open Rostra

variable {K V C R : Type} [LinearOrder K]

/-! ## 1. Pages

A page is read from its cursor on and stops in front of the row that would be the next one. -/

section Functions

variable {m : Type → Type} [Monad m]

/-- `paginate_table`. -/
def paginateTable (table : Table K V) (cursor : Option K) (limit : ℕ) (filterFn : K × V → m (Option R)) :
    m (List R × Option K) := do
  let (ret, row) ← Cursor.page filterFn limit [] (Cursor.rows table fun k => cursor.all (· ≤ k))
  pure (ret, row.map (·.1))

/-- `paginate_table_rev`. -/
def paginateTableRev (table : Table K V) (cursor : Option K) (limit : ℕ)
    (filterFn : K × V → m (Option R)) : m (List R × Option K) := do
  let (ret, row) ← Cursor.page filterFn limit [] (Cursor.rows table fun k => cursor.all (k ≤ ·)).reverse
  pure (ret, row.map (·.1))

/-- `paginate_table_partition`. -/
def paginateTablePartition (table : Table K V) (first last : K) (cursorToKey : C → K)
    (cursor : Option C) (limit : ℕ) (filterFn : K × V → m (Option R)) : m (List R × Option K) := do
  let start := match cursor with
    | some cursor => max (cursorToKey cursor) first
    | none => first
  let (ret, row) ← Cursor.page filterFn limit [] (Cursor.rows table fun k => start ≤ k ∧ k ≤ last)
  pure (ret, row.map (·.1))

/-- `paginate_table_partition_rev`. -/
def paginateTablePartitionRev (table : Table K V) (first last : K) (cursorToKey : C → K)
    (cursor : Option C) (limit : ℕ) (filterFn : K × V → m (Option R)) : m (List R × Option K) := do
  let stop := match cursor with
    | some cursor => min (cursorToKey cursor) last
    | none => last
  let (ret, row) ← Cursor.page filterFn limit [] (Cursor.rows table fun k => first ≤ k ∧ k ≤ stop).reverse
  pure (ret, row.map (·.1))

end Functions

/-! ## 2. Following the cursors

The functions of the source are instances of the library, and so is what follows from it. -/

section Complete

variable {E : Type} (table : Table K V) (filterFn : K × V → Except E (Option R)) {limit : ℕ}

/-- The rows of a range, in the order of a scan. -/
structure RowsOf (before : K → K → Prop) (range : K → Prop) (rows : List (K × V)) : Prop where
  sorted : rows.Pairwise fun a b => before a.1 b.1
  mem : ∀ k v, (k, v) ∈ rows ↔ table.get k = some v ∧ range k

omit [LinearOrder K] in
/-- A page reads the rows of its range and gives the key of the next one. -/
theorem complete_range (hlimit : 1 ≤ limit) (toCursor : K → C) (rowsAt : Option C → List (K × V))
    (hresume : ∀ c row after, row :: after <:+ rowsAt c →
      rowsAt (some (toCursor row.1)) = row :: after) (cursor : Option C) :
    Cursor.Complete filterFn (fun c => do
      let (ret, row) ← Cursor.page (Cursor.visiting filterFn) limit [] (rowsAt c)
      pure (ret, (row.map (·.1)).map toCursor)) cursor (rowsAt cursor) := by
  refine Cursor.complete_page filterFn hlimit (fun row => toCursor row.1) rowsAt hresume (fun c => ?_)
    cursor
  rw [map_eq_pure_bind]
  simp only [Option.map_map]
  rfl

theorem complete_paginateTable (hlimit : 1 ≤ limit) (cursor : Option K) :
    Cursor.Complete filterFn (fun c => paginateTable table c limit (Cursor.visiting filterFn)) cursor
      (Cursor.rows table fun k => cursor.all (· ≤ k)) := by
  have h := complete_range filterFn hlimit id
    (fun cursor => Cursor.rows table fun k => cursor.all (· ≤ k)) (fun c row after hsuffix => ?_) cursor
  · simpa only [paginateTable, Option.map_id_fun, id] using h
  · refine Cursor.rows_resume hsuffix fun k => ?_
    have hrow := (Cursor.mem_rows.mp (hsuffix.mem List.mem_cons_self)).2
    cases c with
    | none => simp
    | some c =>
      simp only [Option.all_some, decide_eq_true_eq, id] at hrow ⊢
      exact ⟨fun h => ⟨hrow.trans h, h⟩, fun h => h.2⟩

theorem complete_paginateTableRev (hlimit : 1 ≤ limit) (cursor : Option K) :
    Cursor.Complete filterFn (fun c => paginateTableRev table c limit (Cursor.visiting filterFn)) cursor
      (Cursor.rows table fun k => cursor.all (k ≤ ·)).reverse := by
  have h := complete_range filterFn hlimit id
    (fun cursor => (Cursor.rows table fun k => cursor.all (k ≤ ·)).reverse)
    (fun c row after hsuffix => ?_) cursor
  · simpa only [paginateTableRev, Option.map_id_fun, id] using h
  · refine Cursor.rows_resume_rev hsuffix fun k => ?_
    have hrow := (Cursor.mem_rows.mp (List.mem_reverse.mp (hsuffix.mem List.mem_cons_self))).2
    cases c with
    | none => simp
    | some c =>
      simp only [Option.all_some, decide_eq_true_eq, id] at hrow ⊢
      exact ⟨fun h => ⟨h.trans hrow, h⟩, fun h => h.2⟩

section Partition

variable {first last : K} {cursorToKey : C → K} {keyToCursor : K → C}

theorem complete_paginateTablePartition (hlimit : 1 ≤ limit)
    (hkey : ∀ k v, table.get k = some v → first ≤ k → k ≤ last → cursorToKey (keyToCursor k) = k)
    (cursor : Option C) : ∃ rows,
      RowsOf table (· < ·) (fun k => (first ≤ k ∧ k ≤ last) ∧ ∀ c, cursor = some c → cursorToKey c ≤ k)
        rows ∧
      Cursor.Complete filterFn (fun c => do
        let (ret, k) ← paginateTablePartition table first last cursorToKey c limit
          (Cursor.visiting filterFn)
        pure (ret, k.map keyToCursor)) cursor rows := by
  refine ⟨Cursor.rows table fun k => (match cursor with
    | some cursor => max (cursorToKey cursor) first
    | none => first) ≤ k ∧ k ≤ last, ⟨Cursor.sorted_rows _ _, fun k v => ?_⟩, ?_⟩
  · rw [Cursor.mem_rows]
    cases cursor with
    | none => simp
    | some c =>
      simp only [decide_eq_true_eq, max_le_iff, Option.some.injEq, forall_eq']
      tauto
  · have h := complete_range filterFn hlimit keyToCursor (fun cursor => Cursor.rows table fun k =>
      (match cursor with
        | some cursor => max (cursorToKey cursor) first
        | none => first) ≤ k ∧ k ≤ last) (fun c row after hsuffix => ?_) cursor
    · simpa only [paginateTablePartition, bind_assoc, pure_bind] using h
    · obtain ⟨hget, hrow⟩ := Cursor.mem_rows.mp (hsuffix.mem List.mem_cons_self)
      refine Cursor.rows_resume hsuffix fun k => ?_
      cases c with
      | none =>
        simp only [decide_eq_true_eq] at hrow ⊢
        rw [hkey _ _ hget hrow.1 hrow.2, max_eq_left hrow.1]
        exact ⟨fun h => ⟨⟨hrow.1.trans h.1, h.2⟩, h.1⟩, fun h => ⟨h.2, h.1.2⟩⟩
      | some c =>
        simp only [decide_eq_true_eq, max_le_iff] at hrow ⊢
        rw [hkey _ _ hget hrow.1.2 hrow.2]
        exact ⟨fun h => ⟨⟨⟨hrow.1.1.trans h.1.1, h.1.2⟩, h.2⟩, h.1.1⟩,
          fun h => ⟨⟨h.2, h.1.1.2⟩, h.1.2⟩⟩

theorem complete_paginateTablePartitionRev (hlimit : 1 ≤ limit)
    (hkey : ∀ k v, table.get k = some v → first ≤ k → k ≤ last → cursorToKey (keyToCursor k) = k)
    (cursor : Option C) : ∃ rows,
      RowsOf table (· > ·) (fun k => (first ≤ k ∧ k ≤ last) ∧ ∀ c, cursor = some c → k ≤ cursorToKey c)
        rows ∧
      Cursor.Complete filterFn (fun c => do
        let (ret, k) ← paginateTablePartitionRev table first last cursorToKey c limit
          (Cursor.visiting filterFn)
        pure (ret, k.map keyToCursor)) cursor rows := by
  refine ⟨(Cursor.rows table fun k => first ≤ k ∧ k ≤ (match cursor with
    | some cursor => min (cursorToKey cursor) last
    | none => last)).reverse, ⟨List.pairwise_reverse.mpr (Cursor.sorted_rows _ _), fun k v => ?_⟩, ?_⟩
  · rw [List.mem_reverse, Cursor.mem_rows]
    cases cursor with
    | none => simp
    | some c =>
      simp only [decide_eq_true_eq, le_min_iff, Option.some.injEq, forall_eq']
      tauto
  · have h := complete_range filterFn hlimit keyToCursor (fun cursor => (Cursor.rows table fun k =>
      first ≤ k ∧ k ≤ (match cursor with
        | some cursor => min (cursorToKey cursor) last
        | none => last)).reverse) (fun c row after hsuffix => ?_) cursor
    · simpa only [paginateTablePartitionRev, bind_assoc, pure_bind] using h
    · obtain ⟨hget, hrow⟩ := Cursor.mem_rows.mp (List.mem_reverse.mp (hsuffix.mem List.mem_cons_self))
      refine Cursor.rows_resume_rev hsuffix fun k => ?_
      cases c with
      | none =>
        simp only [decide_eq_true_eq] at hrow ⊢
        rw [hkey _ _ hget hrow.1 hrow.2, min_eq_left hrow.2]
        exact ⟨fun h => ⟨⟨h.1, h.2.trans hrow.2⟩, h.2⟩, fun h => ⟨h.1.1, h.2⟩⟩
      | some c =>
        simp only [decide_eq_true_eq, le_min_iff] at hrow ⊢
        rw [hkey _ _ hget hrow.1 hrow.2.2]
        exact ⟨fun h => ⟨⟨h.1, h.2.1.trans hrow.2.1, h.2.2⟩, h.2.1⟩,
          fun h => ⟨h.1.1, h.2, h.1.2.2⟩⟩

end Partition

/-- **Pagination is complete.**  For every table, filter, limit from one on and start, a caller who follows
the cursors until there is none gets exactly what the filter keeps, in the order of the keys, of the rows at
or beyond the start; each of these rows has been visited once, and the pages have an end. -/
theorem paginate_complete (hlimit : 1 ≤ limit) :
    (∀ cursor, ∃ rows,
      RowsOf table (· < ·) (fun k => ∀ c, cursor = some c → c ≤ k) rows ∧
      Cursor.Complete filterFn (fun c => paginateTable table c limit (Cursor.visiting filterFn)) cursor
        rows) ∧
    (∀ cursor, ∃ rows,
      RowsOf table (· > ·) (fun k => ∀ c, cursor = some c → k ≤ c) rows ∧
      Cursor.Complete filterFn (fun c => paginateTableRev table c limit (Cursor.visiting filterFn)) cursor
        rows) ∧
    ∀ (first last : K) (C : Type) (cursorToKey : C → K) (keyToCursor : K → C),
      (∀ k v, table.get k = some v → first ≤ k → k ≤ last → cursorToKey (keyToCursor k) = k) →
      (∀ cursor, ∃ rows,
        RowsOf table (· < ·)
          (fun k => (first ≤ k ∧ k ≤ last) ∧ ∀ c, cursor = some c → cursorToKey c ≤ k) rows ∧
        Cursor.Complete filterFn (fun c => do
          let (ret, k) ← paginateTablePartition table first last cursorToKey c limit
            (Cursor.visiting filterFn)
          pure (ret, k.map keyToCursor)) cursor rows) ∧
      ∀ cursor, ∃ rows,
        RowsOf table (· > ·)
          (fun k => (first ≤ k ∧ k ≤ last) ∧ ∀ c, cursor = some c → k ≤ cursorToKey c) rows ∧
        Cursor.Complete filterFn (fun c => do
          let (ret, k) ← paginateTablePartitionRev table first last cursorToKey c limit
            (Cursor.visiting filterFn)
          pure (ret, k.map keyToCursor)) cursor rows := by
  refine ⟨fun cursor => ⟨_, ⟨Cursor.sorted_rows _ _, fun k v => ?_⟩,
    complete_paginateTable table filterFn hlimit cursor⟩,
    fun cursor => ⟨_, ⟨List.pairwise_reverse.mpr (Cursor.sorted_rows _ _), fun k v => ?_⟩,
      complete_paginateTableRev table filterFn hlimit cursor⟩,
    fun first last C cursorToKey keyToCursor hkey => ⟨fun cursor => ?_, fun cursor => ?_⟩⟩
  · rw [Cursor.mem_rows]
    cases cursor with
    | none => simp
    | some c => simp
  · rw [List.mem_reverse, Cursor.mem_rows]
    cases cursor with
    | none => simp
    | some c => simp
  · exact complete_paginateTablePartition table filterFn hlimit hkey cursor
  · exact complete_paginateTablePartitionRev table filterFn hlimit hkey cursor

end Complete

/-! A table of three rows, of which the filter keeps those with even keys. -/

section Sample

def sampleTable : Table ℕ ℕ := ((Table.insert ∅ 1 10).insert 2 20).insert 4 40

def sampleFilter (row : ℕ × ℕ) : Except String (Option ℕ) := .ok (if row.1 % 2 = 0 then some row.2 else none)

/-- The keys from 2 to 4 of a small table, one at a time. -/
theorem paginate_complete_sampleTable : 1 ≤ 1 ∧
    (∀ k v, sampleTable.get k = some v → 2 ≤ k → k ≤ 4 → id (id k) = k) ∧ ∃ rows,
      RowsOf sampleTable (· < ·) (fun k => (2 ≤ k ∧ k ≤ 4) ∧ ∀ c, some 1 = some c → id c ≤ k) rows ∧
      Cursor.Complete sampleFilter (fun c => do
        let (ret, k) ← paginateTablePartition sampleTable 2 4 id c 1 (Cursor.visiting sampleFilter)
        pure (ret, k.map id)) (some 1) rows :=
  ⟨le_rfl, fun _ _ _ _ _ => rfl, ((paginate_complete sampleTable sampleFilter le_rfl).2.2 2 4 ℕ id id
    fun _ _ _ _ _ => rfl).1 (some 1)⟩

end Sample

end Rostra.Db
