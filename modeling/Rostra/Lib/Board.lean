/-
# The best entries, kept online

An entry is a value under an identity, ordered by value first and identity second.  Of several
entries of one identity only the greatest counts, and of those that count only the `k` greatest are
kept.  Whoever keeps no more than these has forgotten the identities that fell out, and may meet
them again with an older value.  `board_insert` says that nothing is lost by it: a new entry can be
compared with the board alone.

The argument is short.  If an identity that fell out comes back with nothing better than what was
forgotten, the board is full and every entry of it is greater, so the newcomer falls out again.
Otherwise the newcomer is the best entry of its identity, and it moves no entry up.
-/
import Mathlib.Data.Prod.Lex
import Rostra.Lib.Newest

namespace Board

open Newest

variable {V I : Type} [LinearOrder V] [LinearOrder I]

/-- Whose entry it is. -/
def owner (x : V ×ₗ I) : I := (ofLex x).2

/-- The value of an entry. -/
def value (x : V ×ₗ I) : V := (ofLex x).1

/-- The greatest entry of each identity. -/
def maxima (s : Finset (V ×ₗ I)) : Finset (V ×ₗ I) :=
  s.filter fun x => ∀ y ∈ s, owner y = owner x → y ≤ x

/-- The `k` greatest of them. -/
def board (k : ℕ) (s : Finset (V ×ₗ I)) : Finset (V ×ₗ I) := newest k (maxima s)

/-! ## 1. The greatest entry of an identity

Entries of one identity are beaten by one of them, and the others never matter again. -/

variable {s t : Finset (V ×ₗ I)} {x y z : V ×ₗ I} {k : ℕ}

omit [LinearOrder V] [LinearOrder I] in
@[simp] theorem owner_toLex (v : V) (i : I) : owner (toLex (v, i)) = i := rfl

omit [LinearOrder V] [LinearOrder I] in
@[simp] theorem value_toLex (v : V) (i : I) : value (toLex (v, i)) = v := rfl

omit [LinearOrder V] [LinearOrder I] in
theorem eq_of_value (hv : value x = value y) (ho : owner x = owner y) : x = y :=
  Prod.ext hv ho

theorem le_of_value (hv : value x ≤ value y) (ho : owner x = owner y) : x ≤ y := by
  rcases lt_or_eq_of_le hv with hlt | heq
  · exact (Prod.Lex.lt_iff.mpr (.inl hlt)).le
  · exact le_of_eq (eq_of_value heq ho)

theorem mem_maxima : x ∈ maxima s ↔ x ∈ s ∧ ∀ y ∈ s, owner y = owner x → y ≤ x :=
  Finset.mem_filter

theorem maxima_subset (s : Finset (V ×ₗ I)) : maxima s ⊆ s := Finset.filter_subset _ _

theorem board_subset_maxima (k : ℕ) (s : Finset (V ×ₗ I)) : board k s ⊆ maxima s :=
  newest_subset k _

/-- An identity has one entry that counts. -/
theorem maxima_unique (hx : x ∈ maxima s) (hy : y ∈ maxima s) (h : owner x = owner y) : x = y :=
  le_antisymm ((mem_maxima.mp hy).2 x (maxima_subset s hx) h)
    ((mem_maxima.mp hx).2 y (maxima_subset s hy) h.symm)

/-- Every entry is at most the one that counts. -/
theorem exists_maxima (hx : x ∈ s) : ∃ y ∈ maxima s, owner y = owner x ∧ x ≤ y := by
  have hne : (s.filter fun y => owner y = owner x).Nonempty :=
    ⟨x, Finset.mem_filter.mpr ⟨hx, rfl⟩⟩
  obtain ⟨y, hy, hmax⟩ := Finset.exists_max_image _ id hne
  obtain ⟨hys, hown⟩ := Finset.mem_filter.mp hy
  refine ⟨y, mem_maxima.mpr ⟨hys, fun z hz hzy => ?_⟩, hown, ?_⟩
  · exact hmax z (Finset.mem_filter.mpr ⟨hz, hzy.trans hown⟩)
  · exact hmax x (Finset.mem_filter.mpr ⟨hx, rfl⟩)

/-- What counts in a set counts in every part that has it. -/
theorem maxima_of_subset (h : s ⊆ t) (hx : x ∈ maxima t) (hs : x ∈ s) : x ∈ maxima s :=
  mem_maxima.mpr ⟨hs, fun y hy hown => (mem_maxima.mp hx).2 y (h hy) hown⟩

/-- Entries that do not count can be left out. -/
theorem maxima_eq_of_subset (h : s ⊆ t) (hmax : maxima t ⊆ s) : maxima s = maxima t := by
  ext x
  constructor
  · intro hx
    have hxs := maxima_subset s hx
    obtain ⟨y, hy, hown, hle⟩ := exists_maxima (h hxs)
    have heq : y = x := le_antisymm ((mem_maxima.mp hx).2 y (hmax hy) hown) hle
    rwa [heq] at hy
  · intro hx
    exact maxima_of_subset h hx (hmax hx)

theorem maxima_maxima (s : Finset (V ×ₗ I)) : maxima (maxima s) = maxima s :=
  maxima_eq_of_subset (maxima_subset s) subset_rfl

theorem maxima_insert_maxima (s : Finset (V ×ₗ I)) (x : V ×ₗ I) :
    maxima (insert x (maxima s)) = maxima (insert x s) := by
  refine maxima_eq_of_subset (Finset.insert_subset_insert x (maxima_subset s)) ?_
  intro y hy
  rcases Finset.mem_insert.mp (maxima_subset _ hy) with rfl | hys
  · exact Finset.mem_insert_self _ _
  · exact Finset.mem_insert_of_mem (maxima_of_subset (Finset.subset_insert x s) hy hys)

/-! ## 2. One more entry

The newcomer is compared with the entries of its identity first, and with the board after. -/

/-- A full board has `k` entries. -/
theorem card_board_of_notMem (hz : z ∈ maxima s) (hout : z ∉ board k s) : (board k s).card = k := by
  have hmany : k ≤ ((maxima s).filter (z < ·)).card := by
    by_contra hfew
    exact hout (mem_newest.mpr ⟨hz, not_le.mp hfew⟩)
  have := Finset.card_filter_le (maxima s) (z < ·)
  rw [board, card_newest]
  omega

/-- What fell out is below the whole board. -/
theorem lt_of_mem_board (hz : z ∈ maxima s) (hout : z ∉ board k s) (hy : y ∈ board k s) :
    z < y := by
  by_contra hle
  refine hout (mem_newest.mpr ⟨hz, lt_of_le_of_lt (Finset.card_le_card ?_) (mem_newest.mp hy).2⟩)
  intro w hw
  obtain ⟨hw, hzw⟩ := Finset.mem_filter.mp hw
  exact Finset.mem_filter.mpr ⟨hw, lt_of_le_of_lt (not_lt.mp hle) hzw⟩

/-- **An identity that fell out comes back with nothing better**: it falls out again. -/
theorem board_insert_forgotten (hz : z ∈ maxima s) (hout : z ∉ board k s)
    (hown : owner z = owner x) (hle : x ≤ z) :
    newest k (maxima (insert x (board k s))) = newest k (maxima (insert x (maxima s))) := by
  have hnone : ∀ y ∈ board k s, owner y ≠ owner x := by
    intro y hy h
    have hzy := maxima_unique hz (board_subset_maxima k s hy) (hown.trans h.symm)
    exact hout (hzy ▸ hy)
  have hbelow : ∀ y ∈ board k s, x < y := fun y hy =>
    lt_of_le_of_lt hle (lt_of_mem_board hz hout hy)
  have hsmall : maxima (insert x (board k s)) = insert x (board k s) := by
    refine Finset.Subset.antisymm (maxima_subset _) fun y hy => mem_maxima.mpr ⟨hy, ?_⟩
    intro w hw hwy
    rcases Finset.mem_insert.mp hy with rfl | hyb
    · rcases Finset.mem_insert.mp hw with rfl | hwb
      · exact le_refl _
      · exact absurd hwy (hnone w hwb)
    · rcases Finset.mem_insert.mp hw with rfl | hwb
      · exact (hbelow y hyb).le
      · exact (maxima_unique (board_subset_maxima k s hwb) (board_subset_maxima k s hyb) hwy).le
  have hlarge : maxima (insert x (maxima s)) = maxima s := by
    refine (maxima_eq_of_subset (Finset.subset_insert x _) fun y hy => ?_).symm.trans
      (maxima_maxima s)
    have hbest := (mem_maxima.mp hy).2 z (Finset.mem_insert_of_mem hz)
    rcases Finset.mem_insert.mp (maxima_subset _ hy) with heq | hys
    · rw [heq, le_antisymm hle (heq ▸ hbest (heq ▸ hown))]
      exact hz
    · exact hys
  rw [hsmall, hlarge]
  -- the newcomer has the whole, full board above it
  have hdrop : newest k (insert x (board k s)) = newest k (board k s) := by
    refine (newest_eq_of_subset (Finset.subset_insert x _) ?_).symm
    intro y hy
    rcases Finset.mem_insert.mp (newest_subset _ _ hy) with rfl | hyb
    · have hall : board k s ⊆ (insert y (board k s)).filter (y < ·) := fun w hw =>
        Finset.mem_filter.mpr ⟨Finset.mem_insert_of_mem hw, hbelow w hw⟩
      have := Finset.card_le_card hall
      have := card_board_of_notMem hz hout
      have := (mem_newest.mp hy).2
      omega
    · exact hyb
  rw [hdrop]
  exact newest_eq_of_subset (board_subset_maxima k s) subset_rfl

/-- An entry is beaten by the newcomer, or still counts. -/
theorem mem_maxima_insert (hz : z ∈ maxima s) :
    z ∈ maxima (insert x (maxima s)) ∨
      (owner z = owner x ∧ z < x ∧ x ∈ maxima (insert x (maxima s))) := by
  by_cases hbeaten : owner z = owner x ∧ z < x
  · obtain ⟨hown, hlt⟩ := hbeaten
    refine .inr ⟨hown, hlt, mem_maxima.mpr ⟨Finset.mem_insert_self _ _, fun w hw hwx => ?_⟩⟩
    rcases Finset.mem_insert.mp hw with rfl | hws
    · exact le_refl _
    · rw [maxima_unique hws hz (hwx.trans hown.symm)]
      exact hlt.le
  · refine .inl (mem_maxima.mpr ⟨Finset.mem_insert_of_mem hz, fun w hw hwz => ?_⟩)
    rcases Finset.mem_insert.mp hw with rfl | hws
    · exact not_lt.mp fun h => hbeaten ⟨hwz.symm, h⟩
    · exact (maxima_unique hws hz hwz).le

/-- **A newcomer moves no other entry up.** -/
theorem mem_board_of_newest_insert (hy : y ∈ newest k (maxima (insert x (maxima s))))
    (hne : y ≠ x) : y ∈ board k s := by
  obtain ⟨hymax, hcount⟩ := mem_newest.mp hy
  have hys : y ∈ maxima s := by
    rcases Finset.mem_insert.mp (maxima_subset _ hymax) with rfl | hys
    · exact absurd rfl hne
    · exact hys
  refine mem_newest.mpr ⟨hys, lt_of_le_of_lt ?_ hcount⟩
  -- every entry above `y` is still above it, or has given its place to `x`
  classical
  refine Finset.card_le_card_of_injOn
    (fun z => if z ∈ maxima (insert x (maxima s)) then z else x) (fun z hz => ?_) ?_
  · obtain ⟨hz, hyz⟩ := Finset.mem_filter.mp hz
    dsimp only
    split
    · next hin => exact Finset.mem_filter.mpr ⟨hin, hyz⟩
    · next hin =>
      obtain ⟨-, hzx, hx⟩ := (mem_maxima_insert hz).resolve_left hin
      exact Finset.mem_filter.mpr ⟨hx, hyz.trans hzx⟩
  · intro z hz w hw heq
    have hz := (Finset.mem_filter.mp hz).1
    have hw := (Finset.mem_filter.mp hw).1
    dsimp only at heq
    split at heq
    · next hzin =>
      split at heq
      · exact heq
      · next hwin =>
        obtain ⟨hown, hlt, -⟩ := (mem_maxima_insert hw).resolve_left hwin
        exact absurd (maxima_unique hw hz (hown.trans (congrArg owner heq.symm)))
          (ne_of_lt (heq ▸ hlt))
    · next hzin =>
      obtain ⟨hzown, hzlt, -⟩ := (mem_maxima_insert hz).resolve_left hzin
      split at heq
      · exact absurd (maxima_unique hz hw (hzown.trans (congrArg owner heq))) (ne_of_lt (heq ▸ hzlt))
      · next hwin =>
        obtain ⟨hwown, -, -⟩ := (mem_maxima_insert hw).resolve_left hwin
        exact maxima_unique hz hw (hzown.trans hwown.symm)

/-- **Nothing is lost by forgetting.**  The board after one more entry follows from the board. -/
theorem board_insert (k : ℕ) (s : Finset (V ×ₗ I)) (x : V ×ₗ I) :
    board k (insert x s) = newest k (maxima (insert x (board k s))) := by
  rw [board, ← maxima_insert_maxima]
  by_cases hback : ∃ z ∈ maxima s, z ∉ board k s ∧ owner z = owner x ∧ x ≤ z
  · obtain ⟨z, hz, hout, hown, hle⟩ := hback
    exact (board_insert_forgotten hz hout hown hle).symm
  · push Not at hback
    have hsub : maxima (insert x (board k s)) ⊆ maxima (insert x (maxima s)) := by
      intro y hy
      have hins := Finset.insert_subset_insert x (board_subset_maxima k s)
      refine mem_maxima.mpr ⟨hins (maxima_subset _ hy), fun w hw hwy => ?_⟩
      by_cases hboard : w ∈ insert x (board k s)
      · exact (mem_maxima.mp hy).2 w hboard hwy
      -- a forgotten entry is below the newcomer, and is the only one of its identity
      rw [Finset.mem_insert, not_or] at hboard
      have hws := Finset.mem_of_mem_insert_of_ne hw hboard.1
      rcases Finset.mem_insert.mp (maxima_subset _ hy) with rfl | hyb
      · exact (hback w hws hboard.2 hwy).le
      · exact (maxima_unique hws (board_subset_maxima k s hyb) hwy).le
    refine (newest_eq_of_subset hsub fun y hy => ?_).symm
    refine maxima_of_subset (Finset.insert_subset_insert x (board_subset_maxima k s))
      (newest_subset _ _ hy) ?_
    by_cases hyx : y = x
    · rw [hyx]
      exact Finset.mem_insert_self _ _
    · exact Finset.mem_insert_of_mem (mem_board_of_newest_insert hy hyx)

end Board
