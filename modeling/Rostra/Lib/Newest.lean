/-
# The newest elements of a finite set

Reading an ordered table backwards and stopping after `k` rows gives its `k` greatest keys.  Here
they are a set, `newest k s`: the elements with fewer than `k` greater ones.  As a set they are easy
to compare (`newest_eq_of_subset`): whoever drops elements, but none of the newest, has not changed
which ones are the newest.
-/
import Mathlib.Data.Finset.Sort

namespace Newest

variable {α : Type} [LinearOrder α]

/-- Greatest first. -/
def descending (s : Finset α) : List α := s.sort (· ≥ ·)

/-- The `k` greatest elements: those with fewer than `k` greater ones. If there are no more than `k`, they are all.
-/
def newest (k : ℕ) (s : Finset α) : Finset α := s.filter fun x => (s.filter (x < ·)).card < k

@[simp] theorem mem_descending {s : Finset α} {x : α} : x ∈ descending s ↔ x ∈ s :=
  Finset.mem_sort _

theorem nodup_descending (s : Finset α) : (descending s).Nodup := Finset.sort_nodup _ _

@[simp] theorem length_descending (s : Finset α) : (descending s).length = s.card :=
  Finset.length_sort _

@[simp] theorem descending_empty : descending (∅ : Finset α) = [] := Finset.sort_empty _

theorem mem_newest {k : ℕ} {s : Finset α} {x : α} :
    x ∈ newest k s ↔ x ∈ s ∧ (s.filter (x < ·)).card < k := Finset.mem_filter

theorem newest_subset (k : ℕ) (s : Finset α) : newest k s ⊆ s := Finset.filter_subset _ _

theorem descending_perm_insert [DecidableEq α] {s : Finset α} {x : α} (h : x ∉ s) :
    (descending s ++ [x]).Perm (descending (insert x s)) := by
  refine (List.perm_ext_iff_of_nodup ?_ (nodup_descending _)).mpr fun y => ?_
  · rw [List.nodup_append_comm, List.singleton_append, List.nodup_cons]
    exact ⟨fun hx => h (mem_descending.mp hx), nodup_descending s⟩
  · simp [or_comm]

/-- Sorting by age puts them in this order. The list may come in any order, but without repetitions. -/
theorem mergeSort_eq_descending {s : Finset α} {l : List α} (h : l.Perm (descending s)) :
    l.mergeSort (fun a b => decide (b ≤ a)) = descending s := by
  have hsorted : (l.mergeSort fun a b => decide (b ≤ a)).Pairwise (· ≥ ·) :=
    List.pairwise_mergeSort' (· ≥ ·) l
  have hsort : (descending s).Pairwise (· ≥ ·) := Finset.pairwise_sort _ _
  exact ((List.mergeSort_perm l _).trans h).eq_of_pairwise' hsorted hsort

/-- What is among the newest of a set is among the newest of a part of it, as long as it is in the part: there are
no more elements above it than before. -/
theorem mem_newest_of_subset {k : ℕ} {s t : Finset α} {x : α} (h : s ⊆ t) (hx : x ∈ newest k t)
    (hs : x ∈ s) : x ∈ newest k s := by
  obtain ⟨-, hcount⟩ := mem_newest.mp hx
  refine mem_newest.mpr ⟨hs, lt_of_le_of_lt (Finset.card_le_card ?_) hcount⟩
  exact Finset.filter_subset_filter _ h

/-- The greatest element is the first, and the others follow without it. This is the step of a loop that reads
backwards. -/
theorem newest_insert_max [DecidableEq α] {k : ℕ} {s : Finset α} {m : α} (h : ∀ y ∈ s, y < m) :
    newest (k + 1) (insert m s) = insert m (newest k s) := by
  ext x
  simp only [mem_newest, Finset.mem_insert]
  constructor
  · rintro ⟨rfl | hx, hcount⟩
    · exact .inl rfl
    · right
      have hm : m ∉ s.filter (x < ·) := fun hm => lt_irrefl m (h m (Finset.mem_filter.mp hm).1)
      rw [Finset.filter_insert, if_pos (h x hx), Finset.card_insert_of_notMem hm] at hcount
      exact ⟨hx, by omega⟩
  · rintro (rfl | ⟨hx, hcount⟩)
    · refine ⟨.inl rfl, ?_⟩
      have hnone : (insert x s).filter (x < ·) = ∅ := by
        refine Finset.filter_eq_empty_iff.mpr fun y hy => ?_
        rcases Finset.mem_insert.mp hy with rfl | hy
        · exact lt_irrefl _
        · exact not_lt_of_gt (h y hy)
      rw [hnone, Finset.card_empty]
      omega
    · refine ⟨.inr hx, ?_⟩
      rw [Finset.filter_insert, if_pos (h x hx)]
      exact lt_of_le_of_lt (Finset.card_insert_le _ _) (by omega)

/-- **Reading backwards and stopping after `k` elements** gives the `k` newest. The left side is what a program
does, the right side is a set. -/
theorem take_descending (k : ℕ) (s : Finset α) :
    (descending s).take k = descending (newest k s) := by
  induction s using Finset.induction_on_max generalizing k with
  | empty => simp [newest]
  | insert m s hm ih =>
    have hnew : m ∉ s := fun h => lt_irrefl m (hm m h)
    have hsort : descending (insert m s) = m :: descending s :=
      Finset.sort_insert _ (fun y hy => le_of_lt (hm y hy)) hnew
    cases k with
    | zero => simp [newest]
    | succ k =>
      have hsort' : descending (insert m (newest k s)) = m :: descending (newest k s) :=
        Finset.sort_insert _ (fun y hy => le_of_lt (hm y (newest_subset k s hy)))
          fun h => hnew (newest_subset k s h)
      rw [hsort, List.take_succ_cons, ih k, newest_insert_max hm, hsort']

theorem card_newest (k : ℕ) (s : Finset α) : (newest k s).card = min k s.card := by
  rw [← length_descending, ← take_descending, List.length_take, length_descending]

/-- **The newest do not depend on the rest.** A part that still has all of the newest has the same newest, so
whoever prunes the rest does not change what is shown. -/
theorem newest_eq_of_subset {k : ℕ} {s t : Finset α} (h : s ⊆ t) (hnew : newest k t ⊆ s) :
    newest k s = newest k t := by
  ext x
  constructor
  · intro hx
    obtain ⟨hxs, hcount⟩ := mem_newest.mp hx
    refine mem_newest.mpr ⟨h hxs, ?_⟩
    by_contra hmany
    -- `k` elements of `t` are newer than `x`, so the newest of `t` all are, and `s` has them
    have habove : newest k t ⊆ s.filter (x < ·) := by
      intro y hy
      refine Finset.mem_filter.mpr ⟨hnew hy, ?_⟩
      by_contra hle
      have hsub : t.filter (x < ·) ⊆ t.filter (y < ·) := by
        intro z hz
        obtain ⟨hz, hxz⟩ := Finset.mem_filter.mp hz
        exact Finset.mem_filter.mpr ⟨hz, lt_of_le_of_lt (not_lt.mp hle) hxz⟩
      have := Finset.card_le_card hsub
      have := (mem_newest.mp hy).2
      omega
    have hfull : (newest k t).card = k := by
      rw [card_newest]
      have := Finset.card_filter_le t (x < ·)
      omega
    have := Finset.card_le_card habove
    omega
  · intro hx
    exact mem_newest_of_subset h hx (hnew hx)

/-- One more element can be compared with the newest alone. What was forgotten before would not have been among
them. -/
theorem newest_insert_newest [DecidableEq α] (k : ℕ) (s : Finset α) (x : α) :
    newest k (insert x (newest k s)) = newest k (insert x s) := by
  refine newest_eq_of_subset (Finset.insert_subset_insert _ (newest_subset k s)) ?_
  intro y hy
  rcases Finset.mem_insert.mp (newest_subset _ _ hy) with rfl | hys
  · exact Finset.mem_insert_self _ _
  · exact Finset.mem_insert_of_mem (mem_newest_of_subset (Finset.subset_insert x s) hy hys)

/-- There may be fewer than `k`. -/
theorem newest_of_card_le {k : ℕ} {s : Finset α} (h : s.card ≤ k) : newest k s = s := by
  refine Finset.eq_of_subset_of_card_le (newest_subset k s) ?_
  rw [card_newest, min_eq_right h]

/-- With one too many, the least is the one to go. A program that keeps `k` of them by dropping the least after
each insertion keeps the newest. -/
theorem newest_of_card_succ [DecidableEq α] {k : ℕ} {s : Finset α} {m : α} (h : s.card = k + 1)
    (hm : m ∈ s) (hle : ∀ y ∈ s, m ≤ y) : newest k s = s.erase m := by
  refine Finset.eq_of_subset_of_card_le (fun x hx => ?_) ?_
  · refine Finset.mem_erase.mpr ⟨?_, newest_subset k s hx⟩
    rintro rfl
    have hall : s.erase x ⊆ s.filter (x < ·) := by
      intro y hy
      obtain ⟨hne, hys⟩ := Finset.mem_erase.mp hy
      exact Finset.mem_filter.mpr ⟨hys, lt_of_le_of_ne (hle y hys) hne.symm⟩
    have := Finset.card_le_card hall
    have := Finset.card_erase_of_mem hm
    have := (mem_newest.mp hx).2
    omega
  · rw [card_newest, Finset.card_erase_of_mem hm]
    omega

/-- Reading `j` elements more makes up for `j` elements that are skipped. So a filter behind a limited read is safe
when the limit was raised by the number of elements that it may refuse. -/
theorem newest_filter_subset {k j : ℕ} {s : Finset α} {q : α → Prop} [DecidablePred q]
    (hj : (s.filter fun x => ¬ q x).card ≤ j) :
    newest k (s.filter q) ⊆ (newest (k + j) s).filter q := by
  intro x hx
  obtain ⟨hxs, hcount⟩ := mem_newest.mp hx
  obtain ⟨hxs, hq⟩ := Finset.mem_filter.mp hxs
  refine Finset.mem_filter.mpr ⟨mem_newest.mpr ⟨hxs, ?_⟩, hq⟩
  have hsub : s.filter (x < ·) ⊆ (s.filter q).filter (x < ·) ∪ s.filter fun x => ¬ q x := by
    intro y hy
    obtain ⟨hy, hlt⟩ := Finset.mem_filter.mp hy
    by_cases hqy : q y
    · exact Finset.mem_union_left _ (Finset.mem_filter.mpr ⟨Finset.mem_filter.mpr ⟨hy, hqy⟩, hlt⟩)
    · exact Finset.mem_union_right _ (Finset.mem_filter.mpr ⟨hy, hqy⟩)
  have := Finset.card_le_card hsub
  have := Finset.card_union_le ((s.filter q).filter (x < ·)) (s.filter fun x => ¬ q x)
  omega

end Newest
