/-
# Draining to low-water marks

A quota is enforced by walking over the items in a fixed order of preference and dropping those that
are under pressure, until the usage is down to a low-water mark.

* `walk press drop` is such a walk over any state: an item is dropped if it is `press`ed in the state
  that its predecessors have left.  Programs differ in how they keep the usage, mark what they dropped
  and break off early; `walk_sim` compares two of them step by step.
* `plan` is two walks over a `Load`, the usage of each owner and of all together: first the owners
  above their high marks, and then everyone, if what is left is above the global one.
* `Shortest` is what a walk drops of one usage: the shortest front part of the list that is enough.  Both
  walks of a plan are such walks, the first one for each owner by itself.
-/
import Mathlib.Algebra.BigOperators.Group.List.Basic
import Mathlib.Algebra.Order.BigOperators.Group.List
import Mathlib.Algebra.Order.Group.Nat
import Mathlib.Algebra.Order.Ring.Nat
import Mathlib.Logic.Function.Basic
import Mathlib.Order.Defs.LinearOrder

namespace Drain

variable {σ τ α β γ : Type}

/-! ## 1. Walks

A walk has no early exit. A program that breaks off is compared with one by the fact that nothing is pressed from
there on. -/

/-- The items to be walked over are sorted by a key. -/
theorem pairwise_sorted {κ : Type} [LinearOrder κ] (key : α → κ) (l : List α) :
    (l.mergeSort fun x y => decide (key x ≤ key y)).Pairwise fun x y => key x ≤ key y := by
  have hsorted : (l.mergeSort fun x y => decide (key x ≤ key y)).Pairwise fun x y =>
      decide (key x ≤ key y) = true := by
    refine List.pairwise_mergeSort ?_ ?_ l
    · intro x y z hxy hyz
      exact decide_eq_true ((of_decide_eq_true hxy).trans (of_decide_eq_true hyz))
    · intro x y
      simpa using le_total (key x) (key y)
  exact hsorted.imp of_decide_eq_true

/-- What a walk drops and what it keeps, in the order of the walk, and the state it ends in. -/
structure Walk (σ α : Type) where
  state : σ
  evicted : List α
  kept : List α

/-- The walk: the items are looked at once, in their order, each in the state that its predecessors have left. -/
def walk (press : σ → α → Bool) (drop : σ → α → σ) : σ → List α → Walk σ α
  | s, [] => ⟨s, [], []⟩
  | s, x :: xs =>
    if press s x then
      let rest := walk press drop (drop s x) xs
      ⟨rest.state, x :: rest.evicted, rest.kept⟩
    else
      let rest := walk press drop s xs
      ⟨rest.state, rest.evicted, x :: rest.kept⟩

section Walk

variable {press : σ → α → Bool} {drop : σ → α → σ} {s : σ} {x : α} {xs l : List α}

@[simp] theorem walk_nil : walk press drop s [] = ⟨s, [], []⟩ := rfl

theorem walk_cons_pressed (h : press s x = true) :
    walk press drop s (x :: xs) = ⟨(walk press drop (drop s x) xs).state,
      x :: (walk press drop (drop s x) xs).evicted, (walk press drop (drop s x) xs).kept⟩ := by
  simp [walk, h]

theorem walk_cons_spared (h : press s x = false) :
    walk press drop s (x :: xs) = ⟨(walk press drop s xs).state, (walk press drop s xs).evicted,
      x :: (walk press drop s xs).kept⟩ := by
  simp [walk, h]

/-- The state is that of the items that were dropped. Items that are kept leave no trace in it. -/
theorem walk_state : (walk press drop s l).state = (walk press drop s l).evicted.foldl drop s := by
  induction l generalizing s with
  | nil => rfl
  | cons x xs ih =>
    cases h : press s x with
    | true => rw [walk_cons_pressed h]; exact ih
    | false => rw [walk_cons_spared h]; exact ih

theorem walk_evicted_sublist : (walk press drop s l).evicted.Sublist l := by
  induction l generalizing s with
  | nil => exact .slnil
  | cons x xs ih =>
    cases h : press s x with
    | true => rw [walk_cons_pressed h]; exact ih.cons_cons x
    | false => rw [walk_cons_spared h]; exact ih.cons x

theorem walk_kept_sublist : (walk press drop s l).kept.Sublist l := by
  induction l generalizing s with
  | nil => exact .slnil
  | cons x xs ih =>
    cases h : press s x with
    | true => rw [walk_cons_pressed h]; exact ih.cons x
    | false => rw [walk_cons_spared h]; exact ih.cons_cons x

/-- What is kept is what was not dropped, if the items can be told apart. So a program that marks what it drops,
and reads the list again, finds the same. -/
theorem walk_kept_eq [DecidableEq β] (f : α → β) (h : (l.map f).Nodup) :
    (walk press drop s l).kept =
      l.filter fun x => decide (f x ∉ (walk press drop s l).evicted.map f) := by
  induction l generalizing s with
  | nil => rfl
  | cons x xs ih =>
    obtain ⟨hx, hxs⟩ := List.nodup_cons.mp h
    cases hpress : press s x with
    | true =>
      rw [walk_cons_pressed hpress, List.filter_cons, if_neg (by simp), ih hxs]
      refine List.filter_congr fun y hy => ?_
      have hne : f y ≠ f x := fun heq => hx (heq ▸ List.mem_map_of_mem hy)
      simp [hne]
    | false =>
      have hkept : f x ∉ (walk press drop s xs).evicted.map f := fun hmem =>
        hx ((walk_evicted_sublist.map f).subset hmem)
      rw [walk_cons_spared hpress, List.filter_cons, if_pos (by simpa using hkept), ih hxs]

/-- Nothing is dropped where nothing is under pressure. This stands for the early exit of a program. -/
theorem walk_of_spared (h : ∀ x ∈ l, press s x = false) : walk press drop s l = ⟨s, [], l⟩ := by
  induction l with
  | nil => rfl
  | cons x xs ih =>
    rw [walk_cons_spared (h x (by simp)), ih fun y hy => h y (by simp [hy])]

/-- **Two walks that agree at each step** drop and keep the same items.  The items may be read in
different ways, and the states may hold different things, as long as the relation is kept. -/
theorem walk_sim (R : σ → τ → Prop) (f : α → β) (press : σ → α → Bool) (drop : σ → α → σ)
    (press' : τ → β → Bool) (drop' : τ → β → τ) {t : τ}
    (hpress : ∀ s t, R s t → ∀ x ∈ l, press s x = press' t (f x))
    (hdrop : ∀ s t, R s t → ∀ x ∈ l, press s x = true → R (drop s x) (drop' t (f x)))
    (hR : R s t) :
    (walk press' drop' t (l.map f)).evicted = (walk press drop s l).evicted.map f ∧
      (walk press' drop' t (l.map f)).kept = (walk press drop s l).kept.map f ∧
      R (walk press drop s l).state (walk press' drop' t (l.map f)).state := by
  induction l generalizing s t with
  | nil => exact ⟨rfl, rfl, hR⟩
  | cons x xs ih =>
    have hx : x ∈ x :: xs := List.mem_cons_self
    have hpress' : ∀ s t, R s t → ∀ y ∈ xs, press s y = press' t (f y) :=
      fun s t hst y hy => hpress s t hst y (List.mem_cons_of_mem _ hy)
    have hdrop' : ∀ s t, R s t → ∀ y ∈ xs, press s y = true → R (drop s y) (drop' t (f y)) :=
      fun s t hst y hy => hdrop s t hst y (List.mem_cons_of_mem _ hy)
    have hsame := hpress s t hR x hx
    rw [List.map_cons]
    cases h : press s x with
    | true =>
      obtain ⟨he, hk, hs⟩ := ih hpress' hdrop' (hdrop s t hR x hx h)
      rw [walk_cons_pressed h, walk_cons_pressed (hsame ▸ h), he, hk]
      exact ⟨rfl, rfl, hs⟩
    | false =>
      obtain ⟨he, hk, hs⟩ := ih hpress' hdrop' hR
      rw [walk_cons_spared h, walk_cons_spared (hsame ▸ h), he, hk]
      exact ⟨rfl, rfl, hs⟩

end Walk

/-! ## 2. Owners first, then everyone

The second walk starts from what the first one has left, and from the items that it has not dropped. -/

/-- What each owner uses, and all together. -/
structure Load (γ : Type) where
  usage : γ → ℕ
  total : ℕ

/-- The marks of the owners and the global ones. -/
structure Marks (γ : Type) where
  high : γ → ℕ
  low : γ → ℕ
  globalHigh : ℕ
  globalLow : ℕ

section Plan

variable [DecidableEq γ] (owner : α → γ) (size : α → ℕ)

/-- What the items of an owner add up to, and all items. -/
def Load.of (l : List α) : Load γ :=
  ⟨fun g => (l.map fun x => if owner x = g then size x else 0).sum, (l.map size).sum⟩

/-- What a list adds up to does not depend on its order. -/
theorem Load.of_perm {l l' : List α} (h : l.Perm l') :
    Load.of owner size l = Load.of owner size l' := by
  unfold Load.of
  rw [(h.map size).sum_eq]
  congr 1
  funext g
  exact (h.map _).sum_eq

theorem Load.of_map (f : β → α) (l : List β) :
    Load.of owner size (l.map f) = Load.of (owner ∘ f) (size ∘ f) l := by
  simp [Load.of, List.map_map, Function.comp_def]

/-- An owner without items uses nothing, and the table of sums need not have a row for it. -/
theorem Load.of_absent {l : List α} {g : γ} (h : g ∉ l.map owner) :
    (Load.of owner size l).usage g = 0 := by
  refine List.sum_eq_zero fun n hn => ?_
  obtain ⟨x, hx, rfl⟩ := List.mem_map.mp hn
  rw [if_neg]
  rintro rfl
  exact h (List.mem_map_of_mem hx)

/-- The row of an owner in a table of sums; an owner without items has none. -/
def Load.row {V : Type} (mk : γ → ℕ → V) (l : List α) (g : γ) : Option V :=
  if g ∈ l.map owner then some (mk g ((Load.of owner size l).usage g)) else none

theorem Load.row_isSome {V : Type} (mk : γ → ℕ → V) (l : List α) (g : γ) :
    (Load.row owner size mk l g).isSome ↔ g ∈ l.map owner := by
  unfold Load.row
  split
  · next h => simpa using h
  · next h => simpa using h

theorem Load.row_eq_some {V : Type} {mk : γ → ℕ → V} {l : List α} {g : γ} {v : V}
    (h : Load.row owner size mk l g = some v) : v = mk g ((Load.of owner size l).usage g) := by
  unfold Load.row at h
  split at h
  · exact (Option.some.inj h).symm
  · cases h

/-- An absent row counts as an empty one. -/
theorem Load.row_getD {V : Type} (mk : γ → ℕ → V) (l : List α) (g : γ) :
    (Load.row owner size mk l g).getD (mk g 0) = mk g ((Load.of owner size l).usage g) := by
  unfold Load.row
  split
  · rfl
  · next h => rw [Load.of_absent owner size h, Option.getD_none]

/-- **One more item** changes the row of its owner, and leaves those of the others. If it had none, it has one now.
-/
theorem Load.row_snoc {V : Type} (mk : γ → ℕ → V) (l : List α) (x : α) :
    Load.row owner size mk (l ++ [x]) = Function.update (Load.row owner size mk l) (owner x)
      (some (mk (owner x) ((Load.of owner size l).usage (owner x) + size x))) := by
  have husage : ∀ g, (Load.of owner size (l ++ [x])).usage g =
      (Load.of owner size l).usage g + if owner x = g then size x else 0 := by
    intro g
    simp [Load.of]
  funext g
  rw [Function.update_apply]
  by_cases hg : g = owner x
  · rw [hg, if_pos rfl, Load.row, if_pos (by simp), husage, if_pos rfl]
  · have hmem : g ∈ (l ++ [x]).map owner ↔ g ∈ l.map owner := by
      rw [List.map_append, List.mem_append]
      exact or_iff_left fun h => hg (by simpa using h)
    rw [if_neg hg, Load.row, Load.row, husage, if_neg (Ne.symm hg), Nat.add_zero]
    by_cases hold : g ∈ l.map owner
    · rw [if_pos hold, if_pos (hmem.mpr hold)]
    · rw [if_neg hold, if_neg fun h => hold (hmem.mp h)]

/-- One item less, of its owner and of all together. The subtractions are cut off at zero; `Covers` is why they
never are. -/
def Load.drop (s : Load γ) (x : α) : Load γ :=
  ⟨Function.update s.usage (owner x) (s.usage (owner x) - size x), s.total - size x⟩

/-- An owner that was above its high mark and is still above the low one. The high mark is compared with the load
at the start of the walk, the low one with what is left. -/
def pressOwner (marks : Marks γ) (start : Load γ) (s : Load γ) (x : α) : Bool :=
  decide (marks.high (owner x) < start.usage (owner x)) &&
    decide (marks.low (owner x) < s.usage (owner x))

/-- The same for all together. -/
def pressAll (marks : Marks γ) (start : Load γ) (s : Load γ) (_ : α) : Bool :=
  decide (marks.globalHigh < start.total) && decide (marks.globalLow < s.total)

/-- What has to go, and the load that stays. -/
structure Plan (α γ : Type) where
  owners : List α
  everyone : List α
  between : Load γ
  rest : Load γ

/-- The owners first, and then everyone over what they have left. -/
def plan (marks : Marks γ) (start : Load γ) (l : List α) : Plan α γ :=
  let first := walk (pressOwner owner marks start) (Load.drop owner size) start l
  let second := walk (pressAll marks first.state) (Load.drop owner size) first.state first.kept
  ⟨first.evicted, second.evicted, first.state, second.state⟩

/-- **A plan over items read in another way** is the plan over the items, read in that way. -/
theorem plan_map (f : β → α) (marks : Marks γ) (start : Load γ) (l : List β) :
    plan owner size marks start (l.map f) =
      ⟨(plan (owner ∘ f) (size ∘ f) marks start l).owners.map f,
        (plan (owner ∘ f) (size ∘ f) marks start l).everyone.map f,
        (plan (owner ∘ f) (size ∘ f) marks start l).between,
        (plan (owner ∘ f) (size ∘ f) marks start l).rest⟩ := by
  obtain ⟨howners, hkept, hbetween⟩ := walk_sim Eq f (pressOwner (owner ∘ f) marks start)
    (Load.drop (owner ∘ f) (size ∘ f)) (pressOwner owner marks start) (Load.drop owner size) (l := l)
    (fun _ _ h _ _ => by rw [h]; rfl) (fun _ _ h _ _ _ => by rw [h]; rfl) (rfl : start = start)
  let first := walk (pressOwner (owner ∘ f) marks start) (Load.drop (owner ∘ f) (size ∘ f)) start l
  obtain ⟨heveryone, -, hrest⟩ := walk_sim Eq f (pressAll marks first.state)
    (Load.drop (owner ∘ f) (size ∘ f)) (pressAll marks first.state) (Load.drop owner size)
    (l := first.kept) (fun _ _ h _ _ => by rw [h]; rfl) (fun _ _ h _ _ _ => by rw [h]; rfl)
    (rfl : first.state = first.state)
  unfold plan
  simp only [howners, hkept, ← hbetween]
  exact congrArg₂ (Plan.mk _ · first.state ·) heveryone hrest.symm

end Plan

/-! ## 3. Shortest front parts

What is dropped depends on the order only through the list that is walked, so the result can be stated for front
parts of it. -/

section Shortest

variable (size : α → ℕ)

/-- **The shortest front part of a list that is enough**: dropping it brings what is used down to the mark,
or it is everything, and no part of it would do. -/
structure Shortest (used low : ℕ) (l p : List α) : Prop where
  front : p <+: l
  enough : used ≤ low + (p.map size).sum ∨ p = l
  needed : ∀ p', p' <+: p → p' ≠ p → low + (p'.map size).sum < used

/-- A walk over a single number, to which both walks of a plan come down. -/
def walkDown (low used : ℕ) (l : List α) : Walk ℕ α :=
  walk (fun s _ => decide (low < s)) (fun s x => s - size x) used l

theorem walkDown_pressed {low used : ℕ} (h : low < used) (x : α) (xs : List α) :
    (walkDown size low used (x :: xs)).evicted = x :: (walkDown size low (used - size x) xs).evicted := by
  simp [walkDown, walk, h]

theorem walkDown_spared {low used : ℕ} (h : ¬ low < used) (l : List α) :
    (walkDown size low used l).evicted = [] := by
  unfold walkDown
  rw [walk_of_spared]
  intro x _
  exact decide_eq_false h

theorem shortest_walkDown (low : ℕ) (l : List α) : ∀ used,
    Shortest size used low l (walkDown size low used l).evicted := by
  induction l with
  | nil => exact fun used => ⟨List.prefix_rfl, .inr rfl, fun p' hp hne => absurd (List.prefix_nil.mp hp) hne⟩
  | cons x xs ih =>
    intro used
    by_cases hpress : low < used
    · have h := ih (used - size x)
      rw [walkDown_pressed size hpress]
      refine ⟨(List.prefix_cons_inj x).mpr h.front, ?_, fun p' hp hne => ?_⟩
      · rcases h.enough with henough | hall
        · left
          rw [List.map_cons, List.sum_cons]
          omega
        · exact .inr (by rw [hall])
      · cases p' with
        | nil => simpa using hpress
        | cons y p' =>
          obtain ⟨rfl, hp⟩ := List.cons_prefix_cons.mp hp
          have hneeded := h.needed p' hp fun heq => hne (by rw [heq])
          rw [List.map_cons, List.sum_cons]
          omega
    · rw [walkDown_spared size hpress]
      exact ⟨List.nil_prefix, .inl (by simpa using hpress),
        fun p' hp hne => absurd (List.prefix_nil.mp hp) hne⟩

variable [DecidableEq γ] (owner : α → γ)

/-- **Owners do not interfere**: what is dropped of one owner is a walk over its own items, however they are mixed
with those of others. -/
theorem evicted_of_owner (marks : Marks γ) (start : Load γ) (g : γ) (l : List α) : ∀ s : Load γ,
    (walk (pressOwner owner marks start) (Load.drop owner size) s l).evicted.filter
        (fun x => owner x = g) =
      if marks.high g < start.usage g then
        (walkDown size (marks.low g) (s.usage g) (l.filter fun x => owner x = g)).evicted
      else [] := by
  induction l with
  | nil => intro s; split <;> rfl
  | cons x xs ih =>
    intro s
    by_cases hg : owner x = g
    · have hown : decide (owner x = g) = true := decide_eq_true hg
      rw [List.filter_cons, if_pos hown]
      by_cases hpress : marks.high g < start.usage g ∧ marks.low g < s.usage g
      · have hx : pressOwner owner marks start s x = true := by
          simp [pressOwner, hg, hpress.1, hpress.2]
        have hdown : (s.drop owner size x).usage g = s.usage g - size x := by
          simp [Load.drop, hg]
        rw [walk_cons_pressed hx, List.filter_cons, if_pos hown, ih, hdown, if_pos hpress.1,
          if_pos hpress.1, walkDown_pressed size hpress.2]
      · have hx : pressOwner owner marks start s x = false := by
          simpa [pressOwner, hg] using hpress
        rw [walk_cons_spared hx, ih]
        split
        · next hhigh =>
          have hlow : ¬ marks.low g < s.usage g := fun h => hpress ⟨hhigh, h⟩
          rw [walkDown_spared size hlow, walkDown_spared size hlow]
        · rfl
    · have hother : ¬ decide (owner x = g) = true := by simpa using hg
      rw [List.filter_cons, if_neg hother]
      cases hx : pressOwner owner marks start s x with
      | true =>
        have hsame : (s.drop owner size x).usage g = s.usage g := by
          simp [Load.drop, Ne.symm hg]
        rw [walk_cons_pressed hx, List.filter_cons, if_neg hother, ih, hsame]
      | false => rw [walk_cons_spared hx, ih]

/-- The second walk looks at the sum only. Whose items they are makes no difference to it. -/
theorem evicted_of_all (marks : Marks γ) (start s : Load γ) (l : List α) :
    (walk (pressAll marks start) (Load.drop owner size) s l).evicted =
      if marks.globalHigh < start.total then (walkDown size marks.globalLow s.total l).evicted else [] := by
  split
  · next hhigh =>
    have hsim := walk_sim (l := l) (s := s) (t := s.total) (fun (s : Load γ) n => s.total = n) id
      (pressAll marks start) (Load.drop owner size) (fun s _ => decide (marks.globalLow < s))
      (fun s x => s - size x) (fun s n hs x _ => by simp [pressAll, hhigh, hs])
      (fun s n hs x _ _ => by simp [Load.drop, hs]) rfl
    rw [List.map_id, List.map_id] at hsim
    exact hsim.1.symm
  · next hlow =>
    rw [walk_of_spared]
    intro x _
    simp [pressAll, hlow]

/-! What is used is never less than what is left to be walked over, so that no subtraction is cut off. -/

/-- The items are part of what is used. -/
def Covers (s : Load γ) (l : List α) : Prop :=
  (∀ g, (Load.of owner size l).usage g ≤ s.usage g) ∧ (l.map size).sum ≤ s.total

variable {size owner}

theorem Covers.spare {s : Load γ} {x : α} {l : List α} (h : Covers size owner s (x :: l)) :
    Covers size owner s l := by
  refine ⟨fun g => ?_, ?_⟩
  · have hg := h.1 g
    simp only [Load.of, List.map_cons, List.sum_cons] at hg ⊢
    omega
  · have htotal := h.2
    rw [List.map_cons, List.sum_cons] at htotal
    omega

theorem Covers.enough {s : Load γ} {x : α} {l : List α} (h : Covers size owner s (x :: l)) :
    size x ≤ s.usage (owner x) ∧ size x ≤ s.total := by
  have hg := h.1 (owner x)
  have htotal := h.2
  simp only [Load.of, List.map_cons, List.sum_cons, if_pos] at hg
  rw [List.map_cons, List.sum_cons] at htotal
  omega

theorem Covers.drop {s : Load γ} {x : α} {l : List α} (h : Covers size owner s (x :: l)) :
    Covers size owner (s.drop owner size x) l := by
  refine ⟨fun g => ?_, ?_⟩
  · have hg := h.1 g
    simp only [Load.of, List.map_cons, List.sum_cons] at hg ⊢
    simp only [Load.drop, Function.update_apply]
    split
    · next heq =>
      rw [heq, if_pos rfl] at hg
      rw [heq]
      omega
    · next hne =>
      rw [if_neg (Ne.symm hne), Nat.zero_add] at hg
      exact hg
  · have htotal := h.2
    rw [List.map_cons, List.sum_cons] at htotal
    simp only [Load.drop]
    omega

theorem Covers.perm {s : Load γ} {l l' : List α} (h : Covers size owner s l) (hp : l.Perm l') :
    Covers size owner s l' := by
  refine ⟨fun g => ?_, ?_⟩
  · rw [← Load.of_perm owner size hp]
    exact h.1 g
  · rw [← (hp.map size).sum_eq]
    exact h.2

/-- A load covers some of its own items. -/
theorem covers_of_sublist {l l' : List α} (h : l.Sublist l') :
    Covers size owner (Load.of owner size l') l :=
  ⟨fun _ => (h.map _).sum_le_sum fun _ _ => Nat.zero_le _,
    (h.map _).sum_le_sum fun _ _ => Nat.zero_le _⟩

/-- A walk leaves a load that covers what it has kept. -/
theorem Covers.walk {press : Load γ → α → Bool} {l : List α} : ∀ {s : Load γ} (m : List α),
    Covers size owner s (m ++ l) →
    Covers size owner (walk press (Load.drop owner size) s l).state
      (m ++ (walk press (Load.drop owner size) s l).kept) := by
  induction l with
  | nil => exact fun _ h => h
  | cons x xs ih =>
    intro s m h
    cases hx : press s x with
    | true =>
      rw [walk_cons_pressed hx]
      exact ih m (h.perm List.perm_middle).drop
    | false =>
      rw [walk_cons_spared hx]
      have hrest := ih (s := s) (m ++ [x]) (by simpa using h)
      simpa using hrest

omit [DecidableEq γ] in
/-- What is dropped and what is kept are the items. -/
theorem walk_perm {press : Load γ → α → Bool} {drop : Load γ → α → Load γ} {l : List α} :
    ∀ {s : Load γ}, ((Drain.walk press drop s l).evicted ++ (Drain.walk press drop s l).kept).Perm l := by
  induction l with
  | nil => exact List.Perm.refl _
  | cons x xs ih =>
    intro s
    cases hx : press s x with
    | true =>
      rw [walk_cons_pressed hx]
      exact ih.cons x
    | false =>
      rw [walk_cons_spared hx]
      exact List.perm_middle.trans (ih.cons x)

/-- **Exact accounting**: dropping items from the load of all leaves the load of the others. So a load that is kept
by subtraction never departs from what it is the sum of. -/
theorem foldl_drop (dropped left : List α) :
    dropped.foldl (Load.drop owner size) (Load.of owner size (dropped ++ left)) =
      Load.of owner size left := by
  induction dropped with
  | nil => rfl
  | cons x xs ih =>
    have hx : (Load.of owner size (x :: (xs ++ left))).drop owner size x =
        Load.of owner size (xs ++ left) := by
      unfold Load.drop Load.of
      congr 1
      · funext g
        rw [Function.update_apply]
        simp only [List.map_cons, List.sum_cons]
        split
        · next heq => simp [heq]
        · next hne => simp [Ne.symm hne]
      · simp
    rw [List.cons_append, List.foldl_cons, hx, ih]

end Shortest

end Drain
