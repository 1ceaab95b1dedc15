/-
# Keeping the value of the greatest stamp

A register holds a stamped value and takes another one only if its stamp is greater.  `Holds S row`
says what is in it as a function of the SET of values offered so far, so that their order and their
repetitions do not matter; it is kept by one more offer (`Holds.offer`), and it determines the
register when no two values share a stamp (`Holds.unique`).
-/
import Mathlib.Data.Set.Insert
import Mathlib.Order.Lattice
import Mathlib.Tactic.Common

namespace Register

variable {O V : Type} [LinearOrder O] {S : Set (O × V)} {row row' : Option (O × V)} {x : O × V}

/-- The register after one more offer. Of two values with one stamp, the one that came first stays. -/
def offer (row : Option (O × V)) (x : O × V) : Option (O × V) :=
  match row with
  | some held => if x.1 ≤ held.1 then some held else some x
  | none => some x

/-- **What the register holds**: the value of the greatest stamp, or nothing was ever offered. -/
def Holds (S : Set (O × V)) (row : Option (O × V)) : Prop :=
  match row with
  | some held => held ∈ S ∧ ∀ y ∈ S, y.1 ≤ held.1
  | none => S = ∅

/-- **One more offer** makes the set larger by one. The register compares the newcomer with its own value only, and
that is enough. -/
theorem Holds.offer (h : Holds S row) (x : O × V) : Holds (insert x S) (offer row x) := by
  cases row with
  | none =>
    have hnone : S = ∅ := h
    refine ⟨Set.mem_insert _ _, fun y hy => ?_⟩
    rcases hy with rfl | hy
    · exact le_refl _
    · rw [hnone] at hy
      cases hy
  | some held =>
    obtain ⟨hmem, hmax⟩ := h
    unfold Register.offer
    dsimp only
    split
    · next hle =>
      refine ⟨Set.mem_insert_of_mem _ hmem, fun y hy => ?_⟩
      rcases hy with rfl | hy
      · exact hle
      · exact hmax y hy
    · next hlt =>
      refine ⟨Set.mem_insert _ _, fun y hy => ?_⟩
      rcases hy with rfl | hy
      · exact le_refl _
      · exact (hmax y hy).trans (not_le.mp hlt).le

/-- **Distinct stamps leave no choice.** Two registers that were offered the same set hold the same, in whatever
order they got it. -/
theorem Holds.unique (h : Holds S row) (h' : Holds S row')
    (hdist : ∀ x ∈ S, ∀ y ∈ S, x.1 = y.1 → x = y) : row = row' := by
  cases row with
  | none =>
    cases row' with
    | none => rfl
    | some held' =>
      have hnone : S = ∅ := h
      rw [hnone] at h'
      cases h'.1
  | some held =>
    cases row' with
    | none =>
      have hnone : S = ∅ := h'
      rw [hnone] at h
      cases h.1
    | some held' =>
      rw [hdist held h.1 held' h'.1 (le_antisymm (h'.2 held h.1) (h.2 held' h'.1))]

/-! ## A list of offers

A table of registers is offered something by every item of a list, each item to the register of its key. -/

section Offers

variable {X K : Type} {items : List X} {key : X → K} {stamp : X → O} {value : X → Option V} {k : K}
  {i : X}

/-- What one register of many is offered by a list of items: the stamped values of the items with its key, those
that have a value. -/
def offers (items : List X) (key : X → K) (stamp : X → O) (value : X → Option V) (k : K) :
    Set (O × V) :=
  {x | ∃ i ∈ items, key i = k ∧ stamp i = x.1 ∧ value i = some x.2}

omit [LinearOrder O] in
@[simp] theorem offers_nil : offers [] key stamp value k = ∅ := by
  ext x
  simp [offers]

omit [LinearOrder O] in
/-- What an item adds. -/
theorem mem_offers_concat : x ∈ offers (items ++ [i]) key stamp value k ↔
    x ∈ offers items key stamp value k ∨ (key i = k ∧ stamp i = x.1 ∧ value i = some x.2) := by
  constructor
  · rintro ⟨j, hj, hx⟩
    rcases List.mem_append.mp hj with hj | hj
    · exact .inl ⟨j, hj, hx⟩
    · obtain rfl := List.mem_singleton.mp hj
      exact .inr hx
  · rintro (⟨j, hj, hx⟩ | hx)
    · exact ⟨j, List.mem_append_left _ hj, hx⟩
    · exact ⟨i, List.mem_append_right _ (List.mem_singleton_self i), hx⟩

/-- The register of a key after one more item. -/
def next [DecidableEq K] (row : Option (O × V)) (key : X → K) (stamp : X → O)
    (value : X → Option V) (k : K) (i : X) : Option (O × V) :=
  if key i = k then (value i).elim row fun v => offer row (stamp i, v) else row

/-- **One more item**, whether it offers something to the register or not. -/
theorem Holds.concat [DecidableEq K] (h : Holds (offers items key stamp value k) row) (i : X) :
    Holds (offers (items ++ [i]) key stamp value k) (next row key stamp value k i) := by
  unfold next
  split
  · next hk =>
    cases hv : value i with
    | none =>
      have hsame : offers (items ++ [i]) key stamp value k = offers items key stamp value k := by
        ext x
        rw [mem_offers_concat, hv]
        simp
      rw [hsame]
      exact h
    | some v =>
      have hone : offers (items ++ [i]) key stamp value k =
          insert (stamp i, v) (offers items key stamp value k) := by
        ext x
        rw [mem_offers_concat, hv, Set.mem_insert_iff, Prod.ext_iff, or_comm]
        simp [hk, eq_comm]
      rw [hone]
      exact h.offer _
  · next hk =>
    have hsame : offers (items ++ [i]) key stamp value k = offers items key stamp value k := by
      ext x
      rw [mem_offers_concat]
      simp [hk]
    rw [hsame]
    exact h

omit [LinearOrder O] in
/-- An item that was there already offers nothing new. So a list may repeat its items. -/
theorem offers_concat_of_mem (hi : ∃ j ∈ items, key j = key i ∧ stamp j = stamp i ∧ value j = value i) :
    offers (items ++ [i]) key stamp value k = offers items key stamp value k := by
  ext x
  rw [mem_offers_concat]
  refine ⟨fun h => h.elim id fun ⟨hk, hs, hv⟩ => ?_, .inl⟩
  obtain ⟨j, hj, hkj, hsj, hvj⟩ := hi
  exact ⟨j, hj, hkj.trans hk, hsj.trans hs, hvj.trans hv⟩

end Offers

end Register
