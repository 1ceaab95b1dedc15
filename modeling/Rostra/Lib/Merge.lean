/-
# Merging sorted streams, a page at a time

Several streams are read through their heads, and the greatest head is always taken next.  `Merged`
says what is read in the end, with no heap and no loop: all rows of all streams, in descending order
if every stream is (`Merged.perm`, `Merged.pairwise`).

A page of a merge loads rows until it has enough records; rows without a record are skipped.
`collect` is such a page of a plain list, `kept` is the page that never stops.  `follow` asks for page
after page, each of its own size, behind the last record of the page before: it ends, with everything
that `kept` gives (`follow_eq`).
-/
import Mathlib.Data.Finset.Max
import Mathlib.Data.List.Perm.Basic
import Mathlib.Data.Prod.Lex

namespace Rostra.Merge

/-! ## 1. What a merge reads

A relation and not a function, since programs differ in how they find the greatest head. -/

section Streams

variable {κ : Type} [LinearOrder κ]

/-- The heads of the streams, each with the place of its stream. -/
def heads (ls : List (List κ)) : Finset (κ ×ₗ ℕ) :=
  (ls.zipIdx.filterMap fun l => l.1.head?.map fun k => (toLex (k, l.2) : κ ×ₗ ℕ)).toFinset

theorem mem_heads {ls : List (List κ)} {x : κ ×ₗ ℕ} :
    x ∈ heads ls ↔ ∃ rest, ls[(ofLex x).2]? = some ((ofLex x).1 :: rest) := by
  simp only [heads, List.mem_toFinset, List.mem_filterMap, Option.map_eq_some_iff,
    List.head?_eq_some_iff]
  constructor
  · rintro ⟨⟨l, i⟩, hl, k, ⟨rest, rfl⟩, rfl⟩
    exact ⟨rest, List.mem_zipIdx_iff_getElem?.mp hl⟩
  · rintro ⟨rest, hrest⟩
    exact ⟨(_, (ofLex x).2), List.mem_zipIdx_iff_getElem?.mpr hrest, (ofLex x).1, ⟨rest, rfl⟩, rfl⟩

/-- A stream moves on to its next row, or comes to its end. The heads of the others are as they were. -/
theorem heads_set {ls : List (List κ)} {i : ℕ} {k : κ} {rest : List κ}
    (hi : ls[i]? = some (k :: rest)) (new : List κ) (x : κ ×ₗ ℕ) :
    x ∈ heads (ls.set i new) ↔
      (x ∈ heads ls ∧ x ≠ toLex (k, i)) ∨ ∃ k' rest', new = k' :: rest' ∧ x = toLex (k', i) := by
  have hlt : i < ls.length := (List.getElem?_eq_some_iff.mp hi).1
  rw [mem_heads, mem_heads]
  by_cases hj : (ofLex x).2 = i
  · have hset : (ls.set i new)[(ofLex x).2]? = some new := by
      rw [hj, List.getElem?_set_self hlt]
    rw [hset]
    constructor
    · rintro ⟨rest', hrest'⟩
      refine .inr ⟨_, rest', Option.some.inj hrest', ?_⟩
      rw [← hj]
      rfl
    · rintro (⟨⟨rest', hrest'⟩, hne⟩ | ⟨k', rest', rfl, rfl⟩)
      · rw [hj, hi] at hrest'
        cases hrest'
        refine absurd ?_ hne
        rw [← hj]
        rfl
      · exact ⟨rest', rfl⟩
  · rw [List.getElem?_set_ne (Ne.symm hj)]
    constructor
    · rintro ⟨rest', hrest'⟩
      refine .inl ⟨⟨rest', hrest'⟩, ?_⟩
      rintro rfl
      exact hj rfl
    · rintro (⟨h, -⟩ | ⟨k', rest', -, rfl⟩)
      · exact h
      · exact absurd rfl hj

/-- **The rows in the order in which the heads are taken.** -/
inductive Merged : List (List κ) → List κ → Prop
  | done {ls : List (List κ)} (hnil : ∀ l ∈ ls, l = []) : Merged ls []
  | take {ls : List (List κ)} {i : ℕ} {k : κ} {rest rows : List κ} (hi : ls[i]? = some (k :: rest))
      (hmax : ∀ x ∈ heads ls, x ≤ toLex (k, i)) (h : Merged (ls.set i rest) rows) :
      Merged ls (k :: rows)

omit [LinearOrder κ] in
theorem perm_set {ls : List (List κ)} {i : ℕ} {k : κ} {rest : List κ}
    (hi : ls[i]? = some (k :: rest)) : (k :: (ls.set i rest).flatten).Perm ls.flatten := by
  obtain ⟨hlt, hget⟩ := List.getElem?_eq_some_iff.mp hi
  have hsplit : ls = ls.take i ++ (k :: rest) :: ls.drop (i + 1) := by
    rw [← hget, List.getElem_cons_drop, List.take_append_drop]
  calc (k :: (ls.set i rest).flatten).Perm
        (k :: ((ls.take i).flatten ++ (rest ++ (ls.drop (i + 1)).flatten))) := by
          rw [List.set_eq_take_append_cons_drop, if_pos hlt, List.flatten_append, List.flatten_cons]
    _ |>.Perm ((ls.take i).flatten ++ k :: (rest ++ (ls.drop (i + 1)).flatten)) :=
          List.perm_middle.symm
    _ |>.Perm ls.flatten := by
          conv_rhs => rw [hsplit]
          rw [List.flatten_append, List.flatten_cons, List.cons_append]

/-- Nothing is lost, and nothing is read twice: the rows are those of all streams. -/
theorem Merged.perm {ls : List (List κ)} {rows : List κ} (h : Merged ls rows) :
    rows.Perm ls.flatten := by
  induction h with
  | done hnil => rw [List.flatten_eq_nil_iff.mpr hnil]
  | take hi hmax h ih => exact (ih.cons _).trans (perm_set hi)

/-- The rows come in descending order, if they do in every stream. A row that is in two streams is read twice. -/
theorem Merged.pairwise {ls : List (List κ)} {rows : List κ} (h : Merged ls rows)
    (hls : ∀ l ∈ ls, l.Pairwise (· ≥ ·)) : rows.Pairwise (· ≥ ·) := by
  induction h with
  | done hnil => exact List.Pairwise.nil
  | @take ls i k rest rows hi hmax h ih =>
    refine List.pairwise_cons.mpr ⟨fun x hx => ?_, ih fun l hl => ?_⟩
    · -- the row is at or behind a head, and no head is greater than the one that was taken
      have hmem : x ∈ ls.flatten :=
        (perm_set hi).mem_iff.mp (List.mem_cons_of_mem _ (h.perm.mem_iff.mp hx))
      obtain ⟨l, hl, hxl⟩ := List.mem_flatten.mp hmem
      obtain ⟨j, hj, rfl⟩ := List.getElem_of_mem hl
      cases hlj : ls[j] with
      | nil =>
        rw [hlj] at hxl
        cases hxl
      | cons k' rest' =>
        rw [hlj] at hxl
        have hhead : (toLex (k', j) : κ ×ₗ ℕ) ∈ heads ls :=
          mem_heads.mpr ⟨rest', List.getElem?_eq_some_iff.mpr ⟨hj, hlj⟩⟩
        have hle : k' ≤ k := Prod.Lex.monotone_fst _ _ (hmax _ hhead)
        rcases List.mem_cons.mp hxl with rfl | hxl
        · exact hle
        · have hsorted := hls _ hl
          rw [hlj] at hsorted
          exact ((List.pairwise_cons.mp hsorted).1 x hxl).trans hle
    · rcases List.mem_or_eq_of_mem_set hl with hl | rfl
      · exact hls l hl
      · exact (List.pairwise_cons.mp (hls _ (List.mem_of_getElem? hi))).2

/-- **Streams without a common row** are merged in strictly descending order. -/
theorem Merged.strict {ls : List (List κ)} {rows : List κ} (h : Merged ls rows)
    (hls : ∀ l ∈ ls, l.Pairwise (· > ·)) (hdisjoint : ls.Pairwise List.Disjoint) :
    rows.Pairwise (· > ·) := by
  have hnodup : rows.Nodup := h.perm.nodup_iff.mpr
    (List.nodup_flatten.mpr ⟨fun l hl => (hls l hl).imp fun h => h.ne', hdisjoint⟩)
  have hdescending := h.pairwise fun l hl => (hls l hl).imp fun h => h.le
  exact (hdescending.and hnodup).imp fun h => lt_of_le_of_ne h.1 (Ne.symm h.2)

/-- Streams can be merged: as long as one of them has a row, there is a greatest head. -/
theorem exists_merged (ls : List (List κ)) : ∃ rows, Merged ls rows := by
  induction hn : ls.flatten.length generalizing ls with
  | zero =>
    exact ⟨[], .done (List.flatten_eq_nil_iff.mp (List.length_eq_zero_iff.mp hn))⟩
  | succ n ih =>
    have hne : (heads ls).Nonempty := by
      obtain ⟨x, hx⟩ := List.exists_mem_of_length_pos (l := ls.flatten) (by omega)
      obtain ⟨l, hl, hxl⟩ := List.mem_flatten.mp hx
      obtain ⟨j, hj, rfl⟩ := List.getElem_of_mem hl
      cases hlj : ls[j] with
      | nil =>
        rw [hlj] at hxl
        cases hxl
      | cons k rest =>
        exact ⟨toLex (k, j), mem_heads.mpr ⟨rest, List.getElem?_eq_some_iff.mpr ⟨hj, hlj⟩⟩⟩
    obtain ⟨rest, hi⟩ := mem_heads.mp ((heads ls).max'_mem hne)
    have hlength := (perm_set hi).length_eq
    rw [List.length_cons, hn] at hlength
    obtain ⟨rows, hrows⟩ := ih _ (Nat.succ.inj hlength)
    exact ⟨_, .take hi (fun x hx => (heads ls).le_max' x hx) hrows⟩

end Streams

/-! ## 2. A page of a list

The loader may fail, and a page that fails is no page. -/

section Pages

variable {κ R : Type} (load : κ → Option (Option R))

/-- All records; a row without one is skipped, and `none` is a loader that fails. -/
def kept : List κ → Option (List R)
  | [] => some []
  | k :: rows =>
    match load k with
    | none => none
    | some record => (kept rows).map (record.toList ++ ·)

/-- The first `limit` records: loading stops with the last of them. -/
def collect : ℕ → List κ → Option (List R)
  | 0, _ => some []
  | _ + 1, [] => some []
  | limit + 1, k :: rows =>
    match load k with
    | none => none
    | some none => collect (limit + 1) rows
    | some (some record) => (collect limit rows).map (record :: ·)

variable {load}

theorem kept_cons {k : κ} {rows : List κ} {all : List R} (h : kept load (k :: rows) = some all) :
    ∃ record rest, load k = some record ∧ kept load rows = some rest ∧
      all = record.toList ++ rest := by
  unfold kept at h
  split at h
  · cases h
  · next record hrecord =>
    obtain ⟨rest, hrest, rfl⟩ := Option.map_eq_some_iff.mp h
    exact ⟨record, rest, hrecord, hrest, rfl⟩

/-- A page is the beginning of what there is. -/
theorem collect_eq_take : ∀ (rows : List κ) (limit : ℕ) {all : List R}, kept load rows = some all →
    collect load limit rows = some (all.take limit) := by
  intro rows
  induction rows with
  | nil =>
    rintro (_ | limit) all h
    · rw [collect, List.take_zero]
    · cases h
      rw [collect, List.take_nil]
  | cons k rows ih =>
    rintro (_ | limit) all h
    · rw [collect, List.take_zero]
    · obtain ⟨record, rest, hrecord, hrest, rfl⟩ := kept_cons h
      rw [collect, hrecord]
      cases record with
      | none => exact ih _ hrest
      | some record =>
        dsimp only
        rw [ih _ hrest]
        rfl

/-- Every record has its row, and the records after it are those of the rows after that. -/
theorem kept_behind : ∀ (rows : List κ) {front rest : List R} {record : R},
    kept load rows = some (front ++ record :: rest) → ∃ before k after,
      rows = before ++ k :: after ∧ load k = some (some record) ∧ kept load after = some rest := by
  intro rows
  induction rows with
  | nil =>
    intro front rest record h
    have hnil := Option.some.inj h
    cases front <;> cases hnil
  | cons k rows ih =>
    intro front rest record h
    obtain ⟨record', rest', hrecord', hrest', heq⟩ := kept_cons h
    have hlater : ∀ front, rest' = front ++ record :: rest → ∃ before k' after,
        k :: rows = before ++ k' :: after ∧ load k' = some (some record) ∧
          kept load after = some rest := by
      rintro front rfl
      obtain ⟨before, k', after, rfl, hload, hafter⟩ := ih hrest'
      exact ⟨k :: before, k', after, rfl, hload, hafter⟩
    cases record' with
    | none => exact hlater front heq.symm
    | some record' =>
      cases front with
      | nil =>
        cases heq
        exact ⟨[], k, rows, rfl, hrecord', hrest'⟩
      | cons first front =>
        cases heq
        exact hlater front rfl

/-- If every row has a record, nothing is skipped. -/
theorem exists_kept {key : R → κ} : ∀ rows : List κ,
    (∀ k ∈ rows, ∃ record, load k = some (some record) ∧ key record = k) →
      ∃ all, kept load rows = some all ∧ all.map key = rows ∧
        ∀ record ∈ all, load (key record) = some (some record) := by
  intro rows
  induction rows with
  | nil => exact fun _ => ⟨[], rfl, rfl, by simp⟩
  | cons k rows ih =>
    intro h
    obtain ⟨record, hrecord, hk⟩ := h k List.mem_cons_self
    obtain ⟨rest, hrest, hkeys, hload⟩ := ih fun k hk => h k (List.mem_cons_of_mem _ hk)
    refine ⟨record :: rest, ?_, by rw [List.map_cons, hk, hkeys], fun r hr => ?_⟩
    · rw [kept, hrecord, hrest]
      rfl
    · rcases List.mem_cons.mp hr with rfl | hr
      · rw [hk, hrecord]
      · exact hload r hr

end Pages

/-! ## 3. Page after page

The induction is on the rows that are left, which get fewer with every page. -/

section Follow

variable {κ R : Type}

/-- Pages of the given sizes, each requested with the cursor of the one before, until one is empty:
all records, or nothing if the last page was not empty. -/
def follow (page : Option κ → ℕ → Option (List R × Option κ)) :
    List ℕ → Option κ → Option (Option (List R))
  | [], _ => some none
  | limit :: limits, cursor =>
    match page cursor limit with
    | none => none
    | some ([], _) => some (some [])
    | some (records, next) => (follow page limits next).map (Option.map (records ++ ·))

/-- **Pages are complete**, whatever their sizes, if each holds the first records behind its cursor
and the rows behind a cursor are those that come after it. -/
theorem follow_eq {page : Option κ → ℕ → Option (List R × Option κ)}
    {load : κ → Option (Option R)} {key : R → κ} (rowsAt : Option κ → List κ)
    (hpage : ∀ c limit, page c limit =
      (collect load limit (rowsAt c)).map fun records => (records, records.getLast?.map key))
    (hkey : ∀ k record, load k = some (some record) → key record = k)
    (hresume : ∀ c before k after, rowsAt c = before ++ k :: after → rowsAt (some k) = after) :
    ∀ (limits : List ℕ) (c : Option κ) {all : List R}, kept load (rowsAt c) = some all →
      (∀ n ∈ limits, 1 ≤ n) → all.length < limits.length →
        follow page limits c = some (some all) := by
  intro limits
  induction limits with
  | nil => exact fun _ _ _ _ h => absurd h (Nat.not_lt_zero _)
  | cons limit limits ih =>
    intro c all hall hlimits hlength
    have hlimit : 1 ≤ limit := hlimits limit List.mem_cons_self
    unfold follow
    rw [hpage, collect_eq_take _ _ hall, Option.map_some]
    rcases List.eq_nil_or_concat (all.take limit) with hnil | ⟨front, record, htake⟩
    · have hempty : all = [] := (List.take_eq_nil_iff.mp hnil).resolve_left (by omega)
      rw [hnil, hempty]
    · rw [List.concat_eq_append] at htake
      have hsplit : all = front ++ record :: all.drop limit := by
        calc all = all.take limit ++ all.drop limit := (List.take_append_drop ..).symm
          _ = front ++ record :: all.drop limit := by
            rw [htake, List.append_assoc, List.singleton_append]
      rw [hsplit] at hall
      obtain ⟨before, k, after, hrows, hload, hafter⟩ := kept_behind _ hall
      have hrest : kept load (rowsAt (some k)) = some (all.drop limit) := by
        rw [hresume c before k after hrows, hafter]
      have hshort : (all.drop limit).length < limits.length := by
        have := congrArg List.length hsplit
        rw [List.length_append, List.length_cons] at this
        rw [List.length_cons] at hlength
        omega
      have hnext := ih (some k) hrest (fun n hn => hlimits n (List.mem_cons_of_mem _ hn)) hshort
      rw [htake, List.getLast?_concat, Option.map_some, hkey k record hload]
      cases hfront : front ++ [record] with
      | nil =>
        rw [List.append_eq_nil_iff] at hfront
        cases hfront.2
      | cons first others =>
        dsimp only
        rw [hnext, ← hfront, Option.map_some, Option.map_some, List.append_assoc,
          List.singleton_append, ← hsplit]

end Follow

end Rostra.Merge
