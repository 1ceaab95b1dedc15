/-
# Semaphores

`tokio::sync::Semaphore` with owned permits: a permit is taken if there is one, and dropped some time later.
Who holds them is the business of the program; here is only what the counter says about how many are out.
-/
import Mathlib.Algebra.BigOperators.Group.List.Basic
import Mathlib.Algebra.Order.BigOperators.Group.List
import Mathlib.Algebra.Order.Ring.Nat

namespace Rostra

/-- The permits that are there. A waiter is not part of it: who only ever tries does not queue. -/
structure Semaphore where
  permits : ℕ
  deriving DecidableEq

namespace Semaphore

/-- `try_acquire_owned`. It does not wait: with no permit left it refuses, and changes nothing. -/
def tryAcquire (s : Semaphore) : Option Semaphore := if s.permits = 0 then none else some ⟨s.permits - 1⟩

/-- A permit is dropped. Nothing checks that it was one of these, so a program that drops what it never took would
make new ones. -/
def release (s : Semaphore) : Semaphore := ⟨s.permits + 1⟩

/-- Of `capacity` permits, `held` are out. It is the one fact about a semaphore that programs rely on, kept by each
permit that is taken or dropped. -/
def Lends (s : Semaphore) (capacity held : ℕ) : Prop := s.permits + held = capacity

variable {s s' : Semaphore} {capacity held : ℕ}

theorem Lends.acquire (h : s.Lends capacity held) (hacquire : s.tryAcquire = some s') :
    s'.Lends capacity (held + 1) := by
  unfold tryAcquire at hacquire
  split at hacquire
  · cases hacquire
  · next hpermits =>
    cases hacquire
    unfold Lends at h ⊢
    dsimp only
    omega

theorem Lends.le (h : s.Lends capacity held) : held ≤ capacity := by
  unfold Lends at h
  omega

/-- **There is a permit as long as not all are out.** A refusal is therefore a proof that the limit is reached
(`Lends.of_refused`). -/
theorem Lends.tryAcquire_eq (h : s.Lends capacity held) (hheld : held < capacity) :
    s.tryAcquire = some ⟨s.permits - 1⟩ := by
  refine if_neg ?_
  unfold Lends at h
  omega

theorem Lends.of_refused (h : s.Lends capacity held) (hrefused : s.tryAcquire = none) : held = capacity := by
  unfold tryAcquire at hrefused
  split at hrefused
  · next hpermits =>
    unfold Lends at h
    omega
  · cases hrefused

/-- When none is out, all are there. -/
theorem Lends.eq_of_none (h : s.Lends capacity 0) : s = ⟨capacity⟩ := by
  obtain ⟨permits⟩ := s
  unfold Lends at h
  exact congrArg Semaphore.mk h

end Semaphore

/-! ## Tallies

Who holds a permit is counted over a list of holders, which changes in one place at a time. -/

/-- What the holders hold together. -/
def tally {α : Type} (f : α → ℕ) (xs : List α) : ℕ := (xs.map f).sum

section Tally

variable {α : Type} (f : α → ℕ) {xs : List α} {i : ℕ} {x : α}

@[simp] theorem tally_append (ys : List α) : tally f (xs ++ ys) = tally f xs + tally f ys := by
  simp [tally]

theorem tally_set (h : xs[i]? = some x) (y : α) : tally f (xs.set i y) + f x = tally f xs + f y := by
  unfold tally
  induction xs generalizing i with
  | nil => simp at h
  | cons z xs ih =>
    cases i with
    | zero =>
      obtain rfl : z = x := by simpa using h
      simp only [List.set_cons_zero, List.map_cons, List.sum_cons]
      omega
    | succ i =>
      have hrest := ih (by simpa using h)
      simp only [List.set_cons_succ, List.map_cons, List.sum_cons]
      omega

theorem tally_eraseIdx (h : xs[i]? = some x) : tally f (xs.eraseIdx i) + f x = tally f xs := by
  unfold tally
  induction xs generalizing i with
  | nil => simp at h
  | cons z xs ih =>
    cases i with
    | zero =>
      obtain rfl : z = x := by simpa using h
      simp only [List.eraseIdx_cons_zero, List.map_cons, List.sum_cons]
      omega
    | succ i =>
      have hrest := ih (by simpa using h)
      simp only [List.eraseIdx_cons_succ, List.map_cons, List.sum_cons]
      omega

theorem tally_add (g : α → ℕ) (xs : List α) : tally (fun x => f x + g x) xs = tally f xs + tally g xs :=
  List.sum_map_add

theorem tally_congr {g : α → ℕ} (h : ∀ x ∈ xs, f x = g x) : tally f xs = tally g xs :=
  congrArg List.sum (List.map_congr_left h)

theorem tally_le {g : α → ℕ} (h : ∀ x ∈ xs, f x ≤ g x) : tally f xs ≤ tally g xs := List.sum_le_sum h

theorem tally_eq_zero (h : ∀ x ∈ xs, f x = 0) : tally f xs = 0 := by
  have hsame : tally f xs = tally (fun _ => 0) xs := tally_congr f h
  rw [hsame]
  simp [tally]

end Tally

end Rostra
