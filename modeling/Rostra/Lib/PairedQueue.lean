/-
# A priority queue with an index

A queue of identifiers, ordered by priority and then by identifier, next to a table with the data of everything
that waits.  The two are kept in step by hand: `Paired` says that they are, and each operation keeps it.

The priority is not part of the table, so changing a row does not move its entry; `fits` is what the row has to
say about the priority that it is filed under.
-/
import Mathlib.Data.Prod.Lex
import Rostra.Lib.Table

namespace Rostra.PairedQueue

variable {K I V : Type} [LinearOrder K] [LinearOrder I]

/-- `pop_first`: the least entry and the rest, or nothing where the queue is empty. -/
def popFirst (queue : Finset (K ×ₗ I)) : Option ((K ×ₗ I) × Finset (K ×ₗ I)) :=
  (Table.least queue).map fun key => (key, queue.erase key)

theorem popFirst_none {queue : Finset (K ×ₗ I)} (h : popFirst queue = none) : queue = ∅ :=
  Table.least_none (Option.map_eq_none_iff.mp h)

theorem popFirst_some {queue rest : Finset (K ×ₗ I)} {key : K ×ₗ I} (h : popFirst queue = some (key, rest)) :
    key ∈ queue ∧ rest = queue.erase key ∧ ∀ key' ∈ queue, key ≤ key' := by
  obtain ⟨least, hleast, heq⟩ := Option.map_eq_some_iff.mp h
  cases heq
  exact ⟨Table.least_mem hleast, rfl, fun _ => Table.least_le hleast⟩

/-- **In step**: every entry has a row that fits it, every row has an entry, and only one. No identifier waits
under two priorities at once. -/
structure Paired (fits : V → K → Prop) (queue : Finset (K ×ₗ I)) (index : Table I V) : Prop where
  row : ∀ {k i}, toLex (k, i) ∈ queue → ∃ v, index.get i = some v ∧ fits v k
  entry : ∀ {i v}, index.get i = some v → ∃ k, toLex (k, i) ∈ queue
  single : ∀ {k k' i}, toLex (k, i) ∈ queue → toLex (k', i) ∈ queue → k = k'

variable {fits : V → K → Prop} {queue : Finset (K ×ₗ I)} {index : Table I V} {k : K} {i : I} {v : V}

omit [LinearOrder K] in
theorem Paired.empty : Paired fits (∅ : Finset (K ×ₗ I)) (∅ : Table I V) where
  row h := absurd h (Finset.notMem_empty _)
  entry h := by
    rw [Table.get_empty] at h
    cases h
  single h := absurd h (Finset.notMem_empty _)

omit [LinearOrder K] in
/-- The entry of a row fits it. -/
theorem Paired.fits_of (h : Paired fits queue index) (hq : toLex (k, i) ∈ queue) (hv : index.get i = some v) :
    fits v k := by
  obtain ⟨v', hv', hfits⟩ := h.row hq
  rw [hv] at hv'
  obtain rfl := Option.some.inj hv'
  exact hfits

omit [LinearOrder K] in
/-- An identifier without a row is not queued, under no priority at all. One lookup in the table is enough to know
it. -/
theorem Paired.absent (h : Paired fits queue index) (hnone : index.get i = none) (k : K) : toLex (k, i) ∉ queue := by
  intro hq
  obtain ⟨v, hv, -⟩ := h.row hq
  rw [hnone] at hv
  cases hv

theorem mem_erase_lex {k₀ : K} {i₀ : I} :
    (toLex (k, i) : K ×ₗ I) ∈ queue.erase (toLex (k₀, i₀)) ↔ (k = k₀ → i ≠ i₀) ∧ toLex (k, i) ∈ queue := by
  rw [Finset.mem_erase, ne_eq, toLex_inj, Prod.mk.injEq, not_and]

/-- **Taking an entry out** finds its row, and takes that out as well. -/
theorem Paired.pop (h : Paired fits queue index) (hq : toLex (k, i) ∈ queue) :
    Paired fits (queue.erase (toLex (k, i))) (index.remove i) where
  row := by
    intro k' i' hrest
    obtain ⟨hne, hmem⟩ := mem_erase_lex.mp hrest
    obtain ⟨v, hv, hfits⟩ := h.row hmem
    have hi : i' ≠ i := fun heq => hne (h.single (heq ▸ hmem) hq) heq
    exact ⟨v, by rw [Table.get_remove_of_ne _ hi, hv], hfits⟩
  entry := by
    intro i' v hv
    have hi : i' ≠ i := by
      rintro rfl
      rw [Table.get_remove_self] at hv
      cases hv
    rw [Table.get_remove_of_ne _ hi] at hv
    obtain ⟨k', hmem⟩ := h.entry hv
    exact ⟨k', mem_erase_lex.mpr ⟨fun _ => hi, hmem⟩⟩
  single hmem hmem' := h.single (mem_erase_lex.mp hmem).2 (mem_erase_lex.mp hmem').2

/-- Queueing an identifier that does not wait. That it does not is what the program has to check first, and the
table tells. -/
theorem Paired.push (h : Paired fits queue index) (hnone : index.get i = none) (hfits : fits v k) :
    Paired fits (insert (toLex (k, i)) queue) (index.insert i v) where
  row := by
    intro k' i' hmore
    rcases Finset.mem_insert.mp hmore with heq | hmem
    · obtain ⟨rfl, rfl⟩ := Prod.mk.inj (toLex_inj.mp heq)
      exact ⟨v, Table.get_insert_self .., hfits⟩
    · have hi : i' ≠ i := fun heq => h.absent hnone k' (heq ▸ hmem)
      rw [Table.get_insert_of_ne _ _ hi]
      exact h.row hmem
  entry := by
    intro i' v' hv'
    by_cases hi : i' = i
    · exact ⟨k, by rw [hi]; exact Finset.mem_insert_self ..⟩
    · rw [Table.get_insert_of_ne _ _ hi] at hv'
      obtain ⟨k', hmem⟩ := h.entry hv'
      exact ⟨k', Finset.mem_insert_of_mem hmem⟩
  single := by
    intro k₁ k₂ i' hmore₁ hmore₂
    rcases Finset.mem_insert.mp hmore₁ with heq₁ | h₁
    · obtain ⟨rfl, rfl⟩ := Prod.mk.inj (toLex_inj.mp heq₁)
      rcases Finset.mem_insert.mp hmore₂ with heq₂ | h₂
      · exact (Prod.mk.inj (toLex_inj.mp heq₂)).1.symm
      · exact absurd h₂ (h.absent hnone k₂)
    · rcases Finset.mem_insert.mp hmore₂ with heq₂ | h₂
      · obtain ⟨-, rfl⟩ := Prod.mk.inj (toLex_inj.mp heq₂)
        exact absurd h₁ (h.absent hnone k₁)
      · exact h.single h₁ h₂

omit [LinearOrder K] in
/-- Changing a row in place, without touching its entry: the new row has to fit the priority that the old one was
filed under. -/
theorem Paired.modify (h : Paired fits queue index) {v' : V} (hv : index.get i = some v)
    (hfits : ∀ k, fits v k → fits v' k) : Paired fits queue (index.insert i v') where
  row := by
    intro k' i' hmem
    by_cases hi : i' = i
    · subst hi
      exact ⟨v', Table.get_insert_self .., hfits k' (h.fits_of hmem hv)⟩
    · rw [Table.get_insert_of_ne _ _ hi]
      exact h.row hmem
  entry := by
    intro i' v'' hv''
    by_cases hi : i' = i
    · subst hi
      exact h.entry hv
    · rw [Table.get_insert_of_ne _ _ hi] at hv''
      exact h.entry hv''
  single := h.single

end Rostra.PairedQueue
