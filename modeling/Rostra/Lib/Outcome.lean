/-
# Fallible computations and transactional runs

Two small kits used by every proof about a store whose operations are `Except ε`-valued.

* `Outcome.Ensures m Q E`: a total description of one computation: `Q` of the value it
  returns, or `E` of the error it raises.  The rules below (`bind`, `mono`, branches) let
  a proof walk a `do` block from the top without unfolding the functions it calls: a callee
  is used through its own `Ensures` lemma and nothing else.

* `Outcome.run step s ops`: a run of transactions.  An operation that raises an error leaves
  the state EXACTLY as it was (`commit`): this is what an aborted transaction means.  An
  invariant of the run needs only be shown for the committed steps (`run_invariant`).
-/
import Mathlib.Data.List.Basic
import Mathlib.Logic.Basic

namespace Outcome

variable {ε α β σ ι : Type}

/-! ## 1. What one computation does

The rules follow the syntax of a `do` block. -/

/-- `m` returns a value satisfying `Q`, or raises an error satisfying `E`. -/
def Ensures (m : Except ε α) (Q : α → Prop) (E : ε → Prop) : Prop :=
  match m with
  | .ok a => Q a
  | .error e => E e

@[simp] theorem ensures_ok {a : α} {Q : α → Prop} {E : ε → Prop} :
    Ensures (.ok a : Except ε α) Q E ↔ Q a := Iff.rfl

@[simp] theorem ensures_pure {a : α} {Q : α → Prop} {E : ε → Prop} :
    Ensures (pure a : Except ε α) Q E ↔ Q a := Iff.rfl

@[simp] theorem ensures_error {e : ε} {Q : α → Prop} {E : ε → Prop} :
    Ensures (.error e : Except ε α) Q E ↔ E e := Iff.rfl

@[simp] theorem ensures_throw {e : ε} {Q : α → Prop} {E : ε → Prop} :
    Ensures (throw e : Except ε α) Q E ↔ E e := Iff.rfl

/-- An `Ensures` is a statement about the two possible results. -/
theorem ensures_iff {m : Except ε α} {Q : α → Prop} {E : ε → Prop} :
    Ensures m Q E ↔ (∀ a, m = .ok a → Q a) ∧ (∀ e, m = .error e → E e) := by
  cases m with
  | ok a => simp
  | error e => simp

theorem Ensures.of_ok {m : Except ε α} {Q : α → Prop} {E : ε → Prop} {a : α}
    (h : Ensures m Q E) (hm : m = .ok a) : Q a := by subst hm; exact h

theorem Ensures.of_error {m : Except ε α} {Q : α → Prop} {E : ε → Prop} {e : ε}
    (h : Ensures m Q E) (hm : m = .error e) : E e := by subst hm; exact h

/-- The sequencing rule. -/
theorem Ensures.bind {m : Except ε α} {f : α → Except ε β} {P : α → Prop} {Q : β → Prop}
    {E : ε → Prop} (hm : Ensures m P E) (hf : ∀ a, P a → Ensures (f a) Q E) :
    Ensures (m >>= f) Q E := by
  cases m with
  | ok a => exact hf a hm
  | error e => exact hm

/-- The consequence rule. -/
theorem Ensures.mono {m : Except ε α} {P Q : α → Prop} {E F : ε → Prop} (hm : Ensures m P E)
    (hQ : ∀ a, P a → Q a) (hE : ∀ e, E e → F e) : Ensures m Q F := by
  cases m with
  | ok a => exact hQ a hm
  | error e => exact hE e hm

/-- Two descriptions of one computation can be used together. -/
theorem Ensures.and {m : Except ε α} {P Q : α → Prop} {E F : ε → Prop} (hP : Ensures m P E)
    (hQ : Ensures m Q F) : Ensures m (fun a => P a ∧ Q a) (fun e => E e ∧ F e) := by
  cases m with
  | ok a => exact ⟨hP, hQ⟩
  | error e => exact ⟨hP, hQ⟩

/-- What raises no error has a result. -/
theorem Ensures.exists_ok {m : Except ε α} {P : α → Prop} (h : Ensures m P (fun _ => False)) :
    ∃ a, m = .ok a := by
  cases m with
  | ok a => exact ⟨a, rfl⟩
  | error e => exact h.elim

/-- Without a claim about errors, every error is admitted. -/
theorem ensures_of_ok {m : Except ε α} {Q : α → Prop} (h : ∀ a, m = .ok a → Q a) :
    Ensures m Q (fun _ => True) :=
  ensures_iff.mpr ⟨h, fun _ _ => trivial⟩

/-- The empty description. -/
theorem ensures_true (m : Except ε α) : Ensures m (fun _ => True) (fun _ => True) :=
  ensures_of_ok fun _ _ => trivial

/-- The description that loses nothing. -/
theorem ensures_self (m : Except ε α) : Ensures m (fun a => m = .ok a) (fun e => m = .error e) :=
  ensures_iff.mpr ⟨fun _ h => h, fun _ h => h⟩

theorem bind_eq_ok {m : Except ε α} {f : α → Except ε β} {b : β} :
    (m >>= f) = .ok b ↔ ∃ a, m = .ok a ∧ f a = .ok b := by
  cases m with
  | ok a => exact ⟨fun h => ⟨a, rfl, h⟩, fun ⟨a', ha, h⟩ => by cases ha; exact h⟩
  | error e => exact ⟨fun h => (by cases h), fun ⟨a', ha, _⟩ => by cases ha⟩

/-- The same for a computation over a list of items: what each item preserves, the list does. -/
theorem Ensures.foldlM {f : σ → ι → Except ε σ} {J : σ → Prop} {E : ε → Prop} :
    ∀ (items : List ι) (s : σ), (∀ i ∈ items, ∀ s, J s → Ensures (f s i) J E) → J s →
      Ensures (items.foldlM f s) J E
  | [], s, _, hs => hs
  | i :: items, s, hstep, hs => by
    rw [List.foldlM_cons]
    refine (hstep i (by simp) s hs).bind fun s' hs' => ?_
    exact Ensures.foldlM items s' (fun j hj => hstep j (by simp [hj])) hs'

/-- The rule for an invariant that mentions the items already worked off. -/
theorem Ensures.foldlM_history {f : σ → ι → Except ε σ} {J : List ι → σ → Prop} {E : ε → Prop} :
    ∀ (items done : List ι) (s : σ),
      (∀ i ∈ items, ∀ done s, J done s → Ensures (f s i) (J (done ++ [i])) E) → J done s →
        Ensures (items.foldlM f s) (J (done ++ items)) E
  | [], done, s, _, hs => by
    rw [List.append_nil]
    exact hs
  | i :: items, done, s, hstep, hs => by
    rw [List.foldlM_cons]
    refine (hstep i (by simp) done s hs).bind fun s' hs' => ?_
    have hrest := Ensures.foldlM_history items (done ++ [i]) s'
      (fun j hj => hstep j (by simp [hj])) hs'
    rw [List.append_assoc] at hrest
    exact hrest

/-- The same for one item at its place in the list, where it may be the only one of its kind. -/
theorem Ensures.foldlM_split {f : σ → ι → Except ε σ} {J : List ι → σ → Prop} {E : ε → Prop}
    (items : List ι) (s : σ)
    (hstep : ∀ done i rest, items = done ++ i :: rest → ∀ s, J done s →
      Ensures (f s i) (J (done ++ [i])) E) (hs : J [] s) :
    Ensures (items.foldlM f s) (J items) E := by
  have hgen : ∀ (rest done : List ι) (s : σ), items = done ++ rest → J done s →
      Ensures (rest.foldlM f s) (J items) E := by
    intro rest
    induction rest with
    | nil =>
      intro done s hsplit hs
      rw [List.append_nil] at hsplit
      exact hsplit ▸ hs
    | cons i rest ih =>
      intro done s hsplit hs
      rw [List.foldlM_cons]
      refine (hstep done i rest hsplit s hs).bind fun s' hs' => ih (done ++ [i]) s' ?_ hs'
      rw [hsplit, List.append_assoc, List.singleton_append]
  exact hgen items [] s rfl hs

/-- Whatever it returns, `m` raises only errors in `E`. -/
def Raises (E : ε → Prop) (m : Except ε α) : Prop := Ensures m (fun _ => True) E

namespace Raises

variable {E F : ε → Prop}

theorem ok (a : α) : Raises E (.ok a : Except ε α) := trivial

theorem pure (a : α) : Raises E (Pure.pure a : Except ε α) := trivial

theorem error {e : ε} (h : E e) : Raises E (.error e : Except ε α) := h

theorem throw_bind {e : ε} (h : E e) (f : α → Except ε β) : Raises E (throw e >>= f) := h

theorem bind {m : Except ε α} {f : α → Except ε β} (hm : Raises E m) (hf : ∀ a, Raises E (f a)) :
    Raises E (m >>= f) :=
  Ensures.bind hm fun a _ => hf a

theorem weaken {m : Except ε α} (hm : Raises E m) (h : ∀ e, E e → F e) : Raises F m :=
  Ensures.mono hm (fun _ h => h) h

theorem foldlM {f : σ → ι → Except ε σ} (hf : ∀ s i, Raises E (f s i)) (items : List ι) (s : σ) :
    Raises E (items.foldlM f s) :=
  (Ensures.foldlM (J := fun _ => True) items s (fun i _ s _ => hf s i) trivial).mono
    (fun _ h => h) fun _ h => h

theorem mapM {f : α → Except ε β} (hf : ∀ a, Raises E (f a)) :
    ∀ items : List α, Raises E (items.mapM f)
  | [] => trivial
  | a :: items => by
    rw [List.mapM_cons]
    exact (hf a).bind fun _ => (mapM hf items).bind fun _ => .pure _

theorem forM {f : α → Except ε PUnit} (hf : ∀ a, Raises E (f a)) :
    ∀ items : List α, Raises E (items.forM f)
  | [] => trivial
  | a :: items => (hf a).bind fun _ => forM hf items

end Raises

/-! ## 2. Runs of transactions

Each rule has the form: what holds for a committed step holds along a run. -/

/-- The state after a transaction: the new one if it committed, the old one if it aborted. -/
def commit (m : Except ε σ) (s : σ) : σ :=
  match m with
  | .ok s' => s'
  | .error _ => s

@[simp] theorem commit_ok (s s' : σ) : commit (.ok s' : Except ε σ) s = s' := rfl

@[simp] theorem commit_error (e : ε) (s : σ) : commit (.error e : Except ε σ) s = s := rfl

/-- A run: each operation commits or leaves no trace. -/
def run (f : σ → ι → Except ε σ) (s : σ) (ops : List ι) : σ :=
  ops.foldl (fun s o => commit (f s o) s) s

variable {f : σ → ι → Except ε σ}

@[simp] theorem run_nil (s : σ) : run f s [] = s := rfl

@[simp] theorem run_cons (s : σ) (o : ι) (ops : List ι) :
    run f s (o :: ops) = run f (commit (f s o) s) ops := rfl

theorem run_append (s : σ) (ops ops' : List ι) :
    run f s (ops ++ ops') = run f (run f s ops) ops' := by
  simp [run, List.foldl_append]

/-- One step of a run, committed or not, keeps what every committed step keeps. -/
theorem commit_invariant {J : σ → Prop} {m : Except ε σ} {s : σ} (hs : J s)
    (hm : ∀ s', m = .ok s' → J s') : J (commit m s) := by
  cases m with
  | ok s' => exact hm s' rfl
  | error e => exact hs

/-- **The invariant rule.**  What every committed step preserves holds along the whole run. -/
theorem run_invariant {J : σ → Prop} :
    ∀ (ops : List ι) (s : σ),
      (∀ o ∈ ops, ∀ s s', J s → f s o = .ok s' → J s') → J s → J (run f s ops)
  | [], _, _, hs => hs
  | o :: ops, s, hstep, hs =>
    run_invariant ops _ (fun o' ho' => hstep o' (by simp [ho']))
      (commit_invariant hs fun s' h => hstep o (by simp) s s' hs h)

/-- The same rule for a relation between a state and a later one. -/
theorem run_relation {R : σ → σ → Prop} (hrefl : ∀ s, R s s)
    (htrans : ∀ s s' s'', R s s' → R s' s'' → R s s'') {J : σ → Prop} :
    ∀ (ops : List ι) (s : σ),
      (∀ o ∈ ops, ∀ s s', J s → f s o = .ok s' → J s' ∧ R s s') → J s →
        R s (run f s ops)
  | [], s, _, _ => hrefl s
  | o :: ops, s, hstep, hs => by
    rw [run_cons]
    cases h : f s o with
    | ok s' =>
      obtain ⟨hs', hR⟩ := hstep o (by simp) s s' hs h
      exact htrans _ _ _ hR
        (run_relation hrefl htrans ops s' (fun o' ho' => hstep o' (by simp [ho'])) hs')
    | error e =>
      exact run_relation hrefl htrans ops s (fun o' ho' => hstep o' (by simp [ho'])) hs

/-- The operations of a run that committed. -/
def committed (f : σ → ι → Except ε σ) : σ → List ι → List ι
  | _, [] => []
  | s, o :: ops =>
    match f s o with
    | .ok s' => o :: committed f s' ops
    | .error _ => committed f s ops

/-- Only the given operations commit, in their order. -/
theorem committed_sublist : ∀ (ops : List ι) (s : σ), (committed f s ops).Sublist ops
  | [], _ => .slnil
  | o :: ops, s => by
    unfold committed
    split
    · exact (committed_sublist ops _).cons_cons o
    · exact (committed_sublist ops _).cons o

/-- Where no operation fails, all of them are committed. -/
theorem committed_eq {J : σ → Prop} :
    ∀ (ops : List ι) (s : σ), (∀ o ∈ ops, ∀ s, J s → Ensures (f s o) J (fun _ => False)) → J s →
      committed f s ops = ops
  | [], _, _, _ => rfl
  | o :: ops, s, hstep, hs => by
    have ho := hstep o List.mem_cons_self s hs
    unfold committed
    cases hf : f s o with
    | ok s' =>
      exact congrArg (o :: ·) (committed_eq ops s' (fun o' ho' => hstep o' (List.mem_cons_of_mem _ ho'))
        (ho.of_ok hf))
    | error e => exact (ho.of_error hf).elim


/-- **The invariant rule with history**: the state of a run against the operations that committed. -/
theorem run_history {J : List ι → σ → Prop} :
    ∀ (ops done : List ι) (s : σ),
      (∀ o ∈ ops, ∀ done s s', J done s → f s o = .ok s' → J (done ++ [o]) s') →
        J done s → J (done ++ committed f s ops) (run f s ops)
  | [], done, s, _, hs => by
    rw [committed, List.append_nil]
    exact hs
  | o :: ops, done, s, hstep, hs => by
    rw [run_cons]
    cases h : f s o with
    | ok s' =>
      have hrest := run_history ops (done ++ [o]) s' (fun o' ho' => hstep o' (by simp [ho']))
        (hstep o (by simp) done s s' hs h)
      rw [List.append_assoc] at hrest
      simpa [committed, h] using hrest
    | error e =>
      simpa [committed, h] using
        run_history ops done s (fun o' ho' => hstep o' (by simp [ho'])) hs

end Outcome
