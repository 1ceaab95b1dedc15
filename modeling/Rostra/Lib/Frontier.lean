/-
# Frontiers

A scan over an ordered set of keys, one row at a time, for the least row that is due.  Rows that are not
due are skipped for good: the cursor moves behind them, and what is remembered is only the earliest time
at which one of them becomes due.

* `Passed` is what a frontier must know to be resumed later: whatever lies behind it is not due before
  the retry time.
* As long as the retry time has not come, the next row beyond the cursor is the least due row if it is
  due (`Passed.least`), and nothing is due if there is none (`Passed.none_due`).

The frontier says nothing about a set that has changed.
-/
import Rostra.Lib.Table

namespace Rostra.Frontier

variable {K : Type} [LinearOrder K]

/-- `old.map_or(t, |old| old.min(t))`: the earlier of two times, where the first one may be missing. -/
def earliest (old : Option ℕ) (t : ℕ) : ℕ := old.elim t (min · t)

theorem earliest_le (old : Option ℕ) (t : ℕ) : earliest old t ≤ t := by
  cases old with
  | none => exact le_rfl
  | some s => exact min_le_right s t

theorem earliest_le_old {old : Option ℕ} {s : ℕ} (h : old = some s) (t : ℕ) : earliest old t ≤ s := by
  subst h
  exact min_le_left s t

/-- What the cursor has passed is not due before the retry time. Where nothing was passed, nothing is said of that
time. -/
def Passed (keys : Finset K) (dueAt : K → ℕ) (after : Option K) (retryAt : Option ℕ) : Prop :=
  ∀ k ∈ keys, Table.passed after k = true → ∃ t, retryAt = some t ∧ t ≤ dueAt k

variable {keys : Finset K} {dueAt : K → ℕ} {after : Option K} {retryAt : Option ℕ} {now : ℕ} {k : K}

theorem passed_start (keys : Finset K) (dueAt : K → ℕ) (retryAt : Option ℕ) :
    Passed keys dueAt none retryAt := by
  intro k _ h
  cases h

/-- **One row is skipped**, and the time at which it becomes due is noted. -/
theorem Passed.skip (h : Passed keys dueAt after retryAt) (hnext : Table.nextAfter keys after = some k) :
    Passed keys dueAt (some k) (some (earliest retryAt (dueAt k))) := by
  intro k' hk' hpassed
  refine ⟨_, rfl, ?_⟩
  rcases (Table.passed_nextAfter hnext hk').mp hpassed with hold | rfl
  · obtain ⟨t, ht, hle⟩ := h k' hk' hold
    exact (earliest_le_old ht _).trans hle
  · exact earliest_le _ _

/-- Before the retry time nothing behind the cursor is due. -/
theorem Passed.not_due (h : Passed keys dueAt after retryAt) (hretry : ∀ t, retryAt = some t → now < t)
    (hk : k ∈ keys) (hpassed : Table.passed after k = true) : now < dueAt k := by
  obtain ⟨t, ht, hle⟩ := h k hk hpassed
  exact (hretry t ht).trans_le hle

/-- **The next row is the least that can be due.** Rows behind the cursor are not, as the retry time has not come,
and those in front of it come later in the order. -/
theorem Passed.least (h : Passed keys dueAt after retryAt) (hretry : ∀ t, retryAt = some t → now < t)
    (hnext : Table.nextAfter keys after = some k) {k' : K} (hk' : k' ∈ keys) (hdue : dueAt k' ≤ now) :
    k ≤ k' := by
  have hfresh : Table.passed after k' = false := by
    by_contra hpassed
    exact absurd hdue (Nat.not_le.mpr (h.not_due hretry hk' (by simpa using hpassed)))
  exact Table.least_le hnext (Table.mem_beyond.mpr ⟨hk', Table.not_passed.mp hfresh⟩)

/-- **At the end of the scan nothing is due.** -/
theorem Passed.none_due (h : Passed keys dueAt after retryAt) (hretry : ∀ t, retryAt = some t → now < t)
    (hnext : Table.nextAfter keys after = none) (hk : k ∈ keys) : now < dueAt k :=
  h.not_due hretry hk (Table.passed_of_nextAfter_none hnext hk)

end Rostra.Frontier
