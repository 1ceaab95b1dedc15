/-
# Labelled machines

A machine takes a step or refuses it, and a step shows some labels.  Any number of parties can share
one: which of them moves next is the list of actions, so a statement about every list of actions is a
statement about every interleaving.  An action that is not enabled is skipped.
-/
import Mathlib.Data.List.Induction

namespace Rostra.Machine

variable {σ α ℓ : Type}

/-- One action, and what has been shown so far. An action that is refused leaves both as they are. -/
def advance (step : σ → α → Option (σ × List ℓ)) (c : σ × List ℓ) (a : α) : σ × List ℓ :=
  match step c.1 a with
  | some (s, shown) => (s, c.2 ++ shown)
  | none => c

/-- A run, with its trace: the labels of all steps in their order. -/
def run (step : σ → α → Option (σ × List ℓ)) (s : σ) (acts : List α) : σ × List ℓ :=
  acts.foldl (advance step) (s, [])

variable {step : σ → α → Option (σ × List ℓ)}

theorem run_snoc (s : σ) (acts : List α) (a : α) :
    run step s (acts ++ [a]) = advance step (run step s acts) a := by
  simp [run]

/-- **The run lemma.**  What holds at the start and is kept by every enabled action of the run holds
at its end, together with the trace. -/
theorem run_invariant {J : σ → List ℓ → Prop} {s₀ : σ} (hstart : J s₀ []) (acts : List α)
    (hstep : ∀ a ∈ acts, ∀ s trace s' shown, J s trace → step s a = some (s', shown) →
      J s' (trace ++ shown)) :
    J (run step s₀ acts).1 (run step s₀ acts).2 := by
  induction acts using List.reverseRecOn with
  | nil => exact hstart
  | append_singleton acts a ih =>
    have hacts := ih fun b hb => hstep b (List.mem_append_left _ hb)
    rw [run_snoc]
    unfold advance
    cases h : step (run step s₀ acts).1 a with
    | none => exact hacts
    | some r => exact hstep a (by simp) _ _ r.1 r.2 hacts h

/-- **A bound on the steps.**  A machine that is not done takes a step, and each step lowers a measure. -/
theorem run_halts {J : σ → List ℓ → Prop} (done : σ → Prop) (measure : σ → List ℓ → ℕ) {s₀ : σ}
    (hstart : J s₀ []) (acts : List α) (hdone : ∀ s a, done s → step s a = none)
    (hstep : ∀ a ∈ acts, ∀ s trace, J s trace → ¬done s → ∃ s' shown, step s a = some (s', shown) ∧
      J s' (trace ++ shown) ∧ (¬done s' → measure s' (trace ++ shown) < measure s trace))
    (hlong : measure s₀ [] < acts.length) : done (run step s₀ acts).1 := by
  have hrun : J (run step s₀ acts).1 (run step s₀ acts).2 ∧ (¬done (run step s₀ acts).1 →
      measure (run step s₀ acts).1 (run step s₀ acts).2 + acts.length ≤ measure s₀ []) := by
    clear hlong
    induction acts using List.reverseRecOn with
    | nil => exact ⟨hstart, fun _ => Nat.le_refl _⟩
    | append_singleton acts a ih =>
      obtain ⟨hJ, hbound⟩ := ih fun b hb => hstep b (List.mem_append_left _ hb)
      rw [run_snoc]
      unfold advance
      by_cases hd : done (run step s₀ acts).1
      · rw [hdone _ a hd]
        exact ⟨hJ, fun hnot => absurd hd hnot⟩
      · obtain ⟨s', shown, hs', hJ', hlower⟩ := hstep a (by simp) _ _ hJ hd
        rw [hs']
        refine ⟨hJ', fun hnot => ?_⟩
        have h₁ := hlower hnot
        have h₂ := hbound hd
        simp only [List.length_append, List.length_singleton]
        omega
  by_contra hnot
  have := hrun.2 hnot
  omega

/-! ## Traces

The labels of a run, in the order in which they were shown. -/

/-- What holds of every label, given what was shown before it. This is how a statement about a moment in the past
is made at the end of a run. -/
def Everywhere (P : List ℓ → ℓ → Prop) (trace : List ℓ) : Prop :=
  ∀ before label after, trace = before ++ label :: after → P before label

variable {P : List ℓ → ℓ → Prop} {trace : List ℓ}

theorem Everywhere.nil : Everywhere P [] := by
  intro before label after h
  simp at h

theorem Everywhere.snoc {label : ℓ} (h : Everywhere P trace) (hlast : P trace label) :
    Everywhere P (trace ++ [label]) := by
  intro before label' after hsplit
  rcases List.eq_nil_or_concat after with rfl | ⟨after, last, rfl⟩
  · obtain ⟨rfl, heq⟩ := List.append_inj' hsplit rfl
    obtain rfl := List.singleton_inj.mp heq
    exact hlast
  · rw [List.concat_eq_append, ← List.cons_append, ← List.append_assoc] at hsplit
    exact h before label' after (List.append_inj' hsplit rfl).1

end Rostra.Machine
