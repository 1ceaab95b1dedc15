/-
# Sweeps

A set of keys is visited in batches behind an exclusive cursor, and it changes between the batches.  What enters
the set behind the cursor is not visited any more, and what leaves it in front of the cursor never will be.  A key
that is in the set from the first batch to the last is visited exactly once.
-/
import Rostra.Lib.Table

namespace Rostra.Sweep

open Table (passed)

variable {K : Type} [LinearOrder K]

/-- The cursor behind a batch. An empty batch leaves it where it was. -/
def moved (c : Option K) (batch : List K) : Option K := batch.getLast?.or c

/-- How far a sweep has come.  `kept` are keys that were in the set all the time. -/
structure Swept (kept : Set K) (c : Option K) (visited : List K) : Prop where
  behind : ∀ k ∈ visited, passed c k = true
  once : visited.Nodup
  all : ∀ k ∈ kept, passed c k = true → k ∈ visited

/-- What is in front of the cursor now, in its order. -/
structure Ahead (kept : Set K) (c : Option K) (rest : List K) : Prop where
  sorted : rest.Pairwise (· < ·)
  ahead : ∀ k ∈ rest, passed c k = false
  all : ∀ k ∈ kept, passed c k = false → k ∈ rest

theorem Swept.start (kept : Set K) : Swept kept none [] where
  behind := by simp
  once := List.nodup_nil
  all k _ hk := by simp [passed] at hk

/-- Keys leave the set. The promise is then for fewer keys, and is kept for those. -/
theorem Swept.shrink {kept kept' : Set K} {c : Option K} {visited : List K} (h : Swept kept c visited)
    (hsub : kept' ⊆ kept) : Swept kept' c visited :=
  ⟨h.behind, h.once, fun k hk => h.all k (hsub hk)⟩

/-- What is behind a cursor is behind every key in front of it. -/
theorem le_of_passed {c : Option K} {k x : K} (hk : passed c k = true) (hx : passed c x = false) : k ≤ x := by
  cases c with
  | none => simp [passed] at hk
  | some c =>
    have hkc : k ≤ c := by simpa [passed] using hk
    exact hkc.trans (Table.not_passed.mp hx c rfl).le

theorem Swept.once_batch {kept : Set K} {c : Option K} {visited rest : List K} (h : Swept kept c visited)
    (ha : Ahead kept c rest) (n : ℕ) : (visited ++ rest.take n).Nodup := by
  refine List.nodup_append.mpr ⟨h.once, (ha.sorted.imp fun hlt => hlt.ne).sublist (List.take_sublist n rest), ?_⟩
  rintro k hk k' hk' rfl
  have hahead := ha.ahead k (List.mem_of_mem_take hk')
  rw [h.behind k hk] at hahead
  cases hahead

/-- **One batch**: it comes from in front of the cursor, so nothing is visited again, and the cursor moves behind
it. -/
theorem Swept.batch {kept : Set K} {c : Option K} {visited rest : List K} (h : Swept kept c visited)
    (ha : Ahead kept c rest) (n : ℕ) : Swept kept (moved c (rest.take n)) (visited ++ rest.take n) := by
  rcases List.eq_nil_or_concat (rest.take n) with hnil | ⟨before, x, hconcat⟩
  · rw [hnil, List.append_nil]
    exact h
  · rw [List.concat_eq_append] at hconcat
    have hmoved : moved c (rest.take n) = some x := by
      rw [moved, hconcat, List.getLast?_concat, Option.some_or]
    have hpassed : ∀ k, passed (some x) k = true ↔ k ≤ x := fun k => by simp [passed]
    have hx : x ∈ rest.take n := by
      rw [hconcat]
      exact List.mem_append_right _ List.mem_cons_self
    have hbatch : ∀ k ∈ rest.take n, k ≤ x := by
      have hsorted := ha.sorted.sublist (List.take_sublist n rest)
      rw [hconcat] at hsorted ⊢
      intro k hk
      rcases List.mem_append.mp hk with hk | hk
      · exact ((List.pairwise_append.mp hsorted).2.2 k hk x List.mem_cons_self).le
      · exact (List.mem_singleton.mp hk).le
    have hlater : ∀ k ∈ rest.drop n, x < k := by
      have hsorted := ha.sorted
      rw [← List.take_append_drop n rest] at hsorted
      exact (List.pairwise_append.mp hsorted).2.2 x hx
    refine ⟨fun k hk => ?_, h.once_batch ha n, fun k hk hle => ?_⟩
    · rw [hmoved, hpassed]
      rcases List.mem_append.mp hk with hk | hk
      · exact le_of_passed (h.behind k hk) (ha.ahead x (List.mem_of_mem_take hx))
      · exact hbatch k hk
    · rw [hmoved, hpassed] at hle
      refine List.mem_append.mpr ?_
      by_cases hold : passed c k = true
      · exact .inl (h.all k hk hold)
      · have hmem := ha.all k hk (by simpa using hold)
        rw [← List.take_append_drop n rest] at hmem
        rcases List.mem_append.mp hmem with hmem | hmem
        · exact .inr hmem
        · exact absurd hle (not_le.mpr (hlater k hmem))

/-- **At the end** what was in the set all the time has been visited. What came and went in between may have been,
or not. -/
theorem Swept.exhausted {kept : Set K} {c : Option K} {visited rest : List K} (h : Swept kept c visited)
    (ha : Ahead kept c rest) {n : ℕ} (hend : rest.drop n = []) : ∀ k ∈ kept, k ∈ visited ++ rest.take n := by
  intro k hk
  refine List.mem_append.mpr ?_
  by_cases hold : passed c k = true
  · exact .inl (h.all k hk hold)
  · have hmem := ha.all k hk (by simpa using hold)
    rw [← List.take_append_drop n rest, hend, List.append_nil] at hmem
    exact .inr hmem

end Rostra.Sweep
