/-
# Pages of a sorted scan

A table keyed by an owner and an item is scanned for its owners, a page at a time: rows beyond a
cursor in order, each owner once, until the page is full.  `IsPage` is what a caller can rely on when
it resumes behind the last owner of a page, whatever happened to the table in between.
-/
import Mathlib.Data.Finset.Sort
import Mathlib.Data.Prod.Lex

namespace Rostra.Pages

variable {α β : Type} [LinearOrder α]

/-! ## 1. Each owner once

The rows of one owner are next to each other. -/

/-- The loop over the rows: an owner is taken when it is not the one taken last. That is enough because the rows of
one owner are next to each other. -/
def leaders : ℕ → Option α → List α → List α
  | 0, _, _ => []
  | _ + 1, _, [] => []
  | n + 1, last, a :: rows =>
    if last = some a then leaders (n + 1) last rows else a :: leaders n (some a) rows

/-- What the loop has to find beyond the owner it took last. -/
structure Leads (n : ℕ) (last : Option α) (rows page : List α) : Prop where
  sorted : page.Pairwise (· < ·)
  mem : ∀ a ∈ page, a ∈ rows ∧ ∀ b, last = some b → b < a
  full : ∀ a ∈ rows, last ≠ some a → a ∈ page ∨ (page.length = n ∧ ∀ x ∈ page, x < a)

theorem leads_leaders (rows : List α) : ∀ (n : ℕ) (last : Option α), rows.Pairwise (· ≤ ·) →
    (∀ b, last = some b → ∀ a ∈ rows, b ≤ a) → Leads n last rows (leaders n last rows) := by
  induction rows with
  | nil =>
    intro n last _ _
    cases n with
    | zero => exact ⟨List.Pairwise.nil, by simp [leaders], by simp⟩
    | succ n => exact ⟨List.Pairwise.nil, by simp [leaders], by simp⟩
  | cons a rows ih =>
    intro n last hsorted hlast
    obtain ⟨ha, hrows⟩ := List.pairwise_cons.mp hsorted
    cases n with
    | zero => exact ⟨List.Pairwise.nil, by simp [leaders], fun x _ _ => .inr ⟨rfl, by simp [leaders]⟩⟩
    | succ n =>
      unfold leaders
      split
      · -- another row of the owner taken last
        next heq =>
        have hrest := ih (n + 1) last hrows fun b hb x hx => hlast b hb x (List.mem_cons_of_mem _ hx)
        refine ⟨hrest.sorted, fun x hx => ⟨List.mem_cons_of_mem _ (hrest.mem x hx).1,
          (hrest.mem x hx).2⟩, fun x hx hne => ?_⟩
        rcases List.mem_cons.mp hx with rfl | hx
        · exact absurd heq hne
        · exact hrest.full x hx hne
      · next hne =>
        have hrest := ih n (some a) hrows fun b hb x hx => by
          cases hb
          exact ha x hx
        have hbeyond : ∀ b, last = some b → b < a := by
          intro b hb
          refine lt_of_le_of_ne (hlast b hb a List.mem_cons_self) ?_
          rintro rfl
          exact hne hb
        refine ⟨List.pairwise_cons.mpr ⟨fun x hx => (hrest.mem x hx).2 a rfl, hrest.sorted⟩,
          fun x hx => ?_, fun x hx _ => ?_⟩
        · rcases List.mem_cons.mp hx with rfl | hx
          · exact ⟨List.mem_cons_self, hbeyond⟩
          · exact ⟨List.mem_cons_of_mem _ (hrest.mem x hx).1, fun b hb =>
              (hbeyond b hb).trans ((hrest.mem x hx).2 a rfl)⟩
        · by_cases hxa : x = a
          · exact .inl (by simp [hxa])
          · have hx' : x ∈ rows := (List.mem_cons.mp hx).resolve_left hxa
            rcases hrest.full x hx' (by simpa using fun h => hxa h.symm) with hin | ⟨hlen, hlt⟩
            · exact .inl (List.mem_cons_of_mem _ hin)
            · refine .inr ⟨by simp [hlen], fun y hy => ?_⟩
              rcases List.mem_cons.mp hy with rfl | hy
              · exact lt_of_le_of_ne (ha x hx') fun h => hxa h.symm
              · exact hlt y hy

/-! ## 2. Pages

What the loop returns, without the loop. -/

variable [LinearOrder β]

/-- The first `limit` owners after the cursor. The limit counts owners, not rows. -/
def pageAfter (keys : Finset (α × β)) (after : Option α) (limit : ℕ) : List α :=
  leaders limit none ((((keys.filter fun k => ∀ c ∈ after, c < k.1).image toLex).sort (· ≤ ·)).map
    fun k => (ofLex k).1)

/-- **What a page is.** Its owners come in order, each once, and an owner beyond the cursor that is not on the page
lies behind a full one. -/
structure IsPage (owners : Finset α) (after : Option α) (limit : ℕ) (page : List α) : Prop where
  sorted : page.Pairwise (· < ·)
  mem : ∀ a ∈ page, a ∈ owners ∧ ∀ c ∈ after, c < a
  full : ∀ a ∈ owners, (∀ c ∈ after, c < a) → a ∈ page ∨ (page.length = limit ∧ ∀ x ∈ page, x < a)

theorem isPage_pageAfter (keys : Finset (α × β)) (after : Option α) (limit : ℕ) :
    IsPage (keys.image Prod.fst) after limit (pageAfter keys after limit) := by
  have hmem : ∀ a, a ∈ (((keys.filter fun k => ∀ c ∈ after, c < k.1).image toLex).sort
      (· ≤ ·)).map (fun k => (ofLex k).1) ↔ a ∈ keys.image Prod.fst ∧ ∀ c ∈ after, c < a := by
    intro a
    simp only [List.mem_map, Finset.mem_sort, Finset.mem_image, Finset.mem_filter]
    constructor
    · rintro ⟨_, ⟨k, ⟨hk, hc⟩, rfl⟩, rfl⟩
      exact ⟨⟨k, hk, rfl⟩, hc⟩
    · rintro ⟨⟨k, hk, rfl⟩, hc⟩
      exact ⟨toLex k, ⟨k, ⟨hk, hc⟩, rfl⟩, rfl⟩
  have hsorted : ((((keys.filter fun k => ∀ c ∈ after, c < k.1).image toLex).sort (· ≤ ·)).map
      fun k => (ofLex k).1).Pairwise (· ≤ ·) := by
    rw [List.pairwise_map]
    refine (Finset.pairwise_sort _ _).imp fun h => ?_
    rcases Prod.Lex.le_iff.mp h with hlt | ⟨heq, -⟩
    · exact le_of_lt hlt
    · exact le_of_eq heq
  have h := leads_leaders _ limit none hsorted fun b hb => by cases hb
  exact ⟨h.sorted, fun a ha => (hmem a).mp (h.mem a ha).1,
    fun a ha hc => h.full a ((hmem a).mpr ⟨ha, hc⟩) (by simp)⟩

end Rostra.Pages
