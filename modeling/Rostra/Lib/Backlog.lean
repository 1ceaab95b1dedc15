/-
# A backlog without duplicates

What a bounded queue that holds every value at most once is for, read off its history alone.  A value
is *outstanding* from the first send that nobody took until it is taken; values are taken in that
order; and a value that had to be dropped is made up for by a warning before anyone goes to sleep.

`Orderly` says that a history could have been made by such a queue.  It names no queue: a program
refines it by showing that its own events keep the history orderly.
-/
import Mathlib.Data.List.Induction

namespace Rostra.Backlog

/-- What is seen of a queue from outside: a value that is sent, one that is taken, one that is dropped, a warning,
and somebody who goes to sleep. -/
inductive Happening (T : Type)
  | sent (v : T)
  | dropped (v : T)
  | taken (v : T)
  | warned
  | slept
  deriving DecidableEq

variable {T : Type} [DecidableEq T]

/-! ## 1. What a history leaves

Functions of the list of happenings, defined by recursion on it. -/

def hold (pending : List T) : Happening T → List T
  | .sent v => if v ∈ pending then pending else pending ++ [v]
  | .taken v => pending.erase v
  | _ => pending

def owe (due : Bool) : Happening T → Bool
  | .dropped _ => true
  | .warned => false
  | _ => due

/-- The values that were sent and not taken since, each at the place of its first such send. -/
def outstanding (history : List (Happening T)) : List T := history.foldl hold []

/-- A value was dropped, and no warning was given since. A history that owes something must not let anybody sleep.
-/
def owing (history : List (Happening T)) : Bool := history.foldl owe false

theorem outstanding_snoc (history : List (Happening T)) (e : Happening T) :
    outstanding (history ++ [e]) = hold (outstanding history) e := by
  simp [outstanding]

omit [DecidableEq T] in
theorem owing_snoc (history : List (Happening T)) (e : Happening T) :
    owing (history ++ [e]) = owe (owing history) e := by
  simp [owing]

/-- The values taken, in the order they were. Of the other events nothing is left. -/
def takes (history : List (Happening T)) : List T :=
  history.filterMap fun
    | .taken v => some v
    | _ => none

/-- The sends that made their value outstanding. A send of a value that is already waiting is not one of them. -/
def firsts (history : List (Happening T)) : List T :=
  (history.foldl (fun s e => (hold s.1 e, s.2 ++ match e with
    | .sent v => if v ∈ s.1 then [] else [v]
    | _ => [])) (([] : List T), ([] : List T))).2

theorem firsts_snoc (history : List (Happening T)) (e : Happening T) :
    firsts (history ++ [e]) = firsts history ++ match e with
      | .sent v => if v ∈ outstanding history then [] else [v]
      | _ => [] := by
  have hfst : ∀ (l : List (Happening T)) (s : List T × List T),
      (l.foldl (fun s e => (hold s.1 e, s.2 ++ match e with
        | .sent v => if v ∈ s.1 then [] else [v]
        | _ => [])) s).1 = l.foldl hold s.1 := by
    intro l
    induction l with
    | nil => intro s; rfl
    | cons e l ih => intro s; exact ih _
  unfold firsts
  rw [List.foldl_append]
  simp only [List.foldl_cons, List.foldl_nil, hfst]
  rfl

/-! ## 2. Orderly histories

What may happen next is a condition on what has happened, so that orderly histories are closed under front parts. -/

/-- What may happen next, given what is waiting and whether a warning is due. -/
def Allowed (pending : List T) (due : Bool) : Happening T → Prop
  | .sent _ => True
  | .dropped v => v ∉ pending
  | .taken v => pending.head? = some v
  | .warned => pending = [] ∧ due = true
  | .slept => pending = [] ∧ due = false

/-- **Everything that happened was allowed by what happened before it.** -/
def Orderly (history : List (Happening T)) : Prop :=
  ∀ before e after, history = before ++ e :: after → Allowed (outstanding before) (owing before) e

theorem orderly_nil : Orderly ([] : List (Happening T)) := by
  intro before e after h
  simp at h

theorem Orderly.snoc {history : List (Happening T)} (h : Orderly history) {e : Happening T}
    (he : Allowed (outstanding history) (owing history) e) : Orderly (history ++ [e]) := by
  intro before e' after heq
  rcases List.eq_nil_or_concat after with rfl | ⟨after', x, rfl⟩
  · obtain ⟨rfl, hlast⟩ := List.append_inj' heq rfl
    cases hlast
    exact he
  · have hcons : history ++ [e] = (before ++ e' :: after') ++ [x] := by simpa using heq
    exact h before e' after' (List.append_inj' hcons rfl).1

theorem Orderly.of_snoc {history : List (Happening T)} {e : Happening T}
    (h : Orderly (history ++ [e])) :
    Orderly history ∧ Allowed (outstanding history) (owing history) e :=
  ⟨fun before e' after heq => h before e' (after ++ [e]) (by rw [heq]; simp), h history e [] rfl⟩

/-- Nothing is taken twice or out of turn: what was taken, followed by what is outstanding, are the
first sends in their order. -/
theorem Orderly.takes_append {history : List (Happening T)} (h : Orderly history) :
    takes history ++ outstanding history = firsts history := by
  induction history using List.reverseRecOn with
  | nil => rfl
  | append_singleton history e ih =>
    obtain ⟨hbefore, he⟩ := h.of_snoc
    rw [firsts_snoc, ← ih hbefore, outstanding_snoc]
    cases e with
    | sent v =>
      by_cases hv : v ∈ outstanding history
      · simp [takes, hold, hv]
      · simp [takes, hold, hv]
    | taken v =>
      -- the value taken is the first one outstanding
      obtain ⟨rest, hrest⟩ := List.head?_eq_some_iff.mp he
      simp [takes, hold, hrest]
    | dropped v => simp [takes, hold]
    | warned => simp [takes, hold]
    | slept => simp [takes, hold]

omit [DecidableEq T] in
/-- A debt stays until a warning. Nothing else that happens can settle it. -/
theorem owing_of_dropped (before : List (Happening T)) (v : T) (between : List (Happening T))
    (h : Happening.warned ∉ between) : owing (before ++ .dropped v :: between) = true := by
  induction between using List.reverseRecOn with
  | nil => rw [owing_snoc]; rfl
  | append_singleton between e ih =>
    have hmem : Happening.warned ∉ between ∧ Happening.warned ≠ e := by simpa using h
    rw [← List.cons_append, ← List.append_assoc, owing_snoc, ih hmem.1]
    cases e with
    | warned => exact absurd rfl hmem.2
    | sent v => rfl
    | dropped v => rfl
    | taken v => rfl
    | slept => rfl

/-- **Nobody sleeps between a drop and its warning.** Whoever goes to sleep after a value was dropped has been
warned in between, and can look for the value elsewhere. -/
theorem Orderly.warned_before_sleep {before between after : List (Happening T)} {v : T}
    (h : Orderly (before ++ .dropped v :: between ++ .slept :: after)) :
    Happening.warned ∈ between := by
  by_contra hnot
  have hslept := h (before ++ .dropped v :: between) .slept after rfl
  rw [owing_of_dropped before v between hnot] at hslept
  cases hslept.2

end Rostra.Backlog
