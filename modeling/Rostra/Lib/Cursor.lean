/-
# Cursors

A scan that is cut into pages.  A page goes on until it has `limit` results, and the row in front of which
it stops is the cursor of the next one, so a filter may drop any number of rows.

The filter runs in any lawful monad.  Equality with the loop that is not cut (`kept`) is therefore a
statement about more than the results: whatever the filter does is done to the same rows in the same order.
`visiting` makes that explicit, with a log of the rows.
-/
import Rostra.Lib.Table
import Mathlib.Data.Finset.Sort
import Mathlib.Control.Lawful

namespace Rostra.Cursor

/-! ## 1. One page, and all of them

The loop over one page, the loop over all pages, and the loop without pages. -/

section Pages

variable {m : Type → Type} [Monad m] {ρ R C : Type}

/-- What the filter keeps of some rows. -/
def kept (keep : ρ → m (Option R)) : List ρ → m (List R)
  | [] => pure []
  | row :: rows => do
    let r ← keep row
    let rs ← kept keep rows
    pure (r.toList ++ rs)

/-- The loop of a page: it stops in front of the first row that it has no room for. -/
def page (keep : ρ → m (Option R)) (limit : ℕ) : List R → List ρ → m (List R × Option ρ)
  | ret, [] => pure (ret, none)
  | ret, row :: rows =>
    if limit ≤ ret.length then pure (ret, some row)
    else do
      let r ← keep row
      page keep limit (ret ++ r.toList) rows

/-- A page, and those after it if it has a cursor. -/
def andRest (rest : C → m (Option (List R))) : List R × Option C → m (Option (List R))
  | (ret, none) => pure (some ret)
  | (ret, some c) => (Option.map (ret ++ ·)) <$> rest c

/-- Pages are requested until there is no cursor: all results, or nothing if there was no end. -/
def follow (next : Option C → m (List R × Option C)) : ℕ → Option C → m (Option (List R))
  | 0, _ => pure none
  | fuel + 1, cursor => next cursor >>= andRest fun c => follow next fuel (some c)

variable [LawfulMonad m]

/-- A page and what comes after it is the whole loop, if what comes after it does the rest. -/
theorem page_bind {β : Type} (keep : ρ → m (Option R)) (limit : ℕ) (F : List R → β)
    (g : List R × Option ρ → m β) (hend : ∀ ret, g (ret, none) = pure (F ret)) (rows : List ρ) :
    ∀ ret, (∀ ret row after, row :: after <:+ rows →
      g (ret, some row) = (fun rs => F (ret ++ rs)) <$> kept keep (row :: after)) →
    (page keep limit ret rows >>= g) = (fun rs => F (ret ++ rs)) <$> kept keep rows := by
  induction rows with
  | nil =>
    intro ret _
    simp [page, kept, hend]
  | cons row rows ih =>
    intro ret hstop
    unfold page
    split
    · rw [pure_bind]
      exact hstop ret row rows List.suffix_rfl
    · have hrest : ∀ r : Option R, (page keep limit (ret ++ r.toList) rows >>= g) =
          (fun rs => F (ret ++ r.toList ++ rs)) <$> kept keep rows :=
        fun r => ih _ fun ret row after hsuffix => hstop ret row after (hsuffix.trans (List.suffix_cons _ _))
      simp only [bind_assoc, hrest, kept, pure_bind, List.append_assoc, map_eq_pure_bind]

/-- **Pages are complete.**  If a cursor continues where its page stopped, then following cursors until
there is none is the loop over all rows, and it ends. -/
theorem follow_page (keep : ρ → m (Option R)) {limit : ℕ} (hlimit : 1 ≤ limit) (key : ρ → C)
    (rowsAt : Option C → List ρ)
    (hresume : ∀ c row after, row :: after <:+ rowsAt c → rowsAt (some (key row)) = row :: after)
    {next : Option C → m (List R × Option C)}
    (hnext : ∀ c, next c = (fun p => (p.1, p.2.map key)) <$> page keep limit [] (rowsAt c)) :
    ∀ (fuel : ℕ) (c : Option C), (rowsAt c).length < fuel →
      follow next fuel c = some <$> kept keep (rowsAt c) := by
  intro fuel
  induction fuel with
  | zero => exact fun c h => absurd h (Nat.not_lt_zero _)
  | succ fuel ih =>
    intro c hfuel
    have hstart : follow next (fuel + 1) c = page keep limit [] (rowsAt c) >>= fun p =>
        andRest (fun c => follow next fuel (some c)) (p.1, p.2.map key) := by
      rw [follow, hnext c, bind_map_left]
    rw [hstart]
    cases hrows : rowsAt c with
    | nil => simp [page, kept, andRest]
    | cons row rows =>
      -- the first row is always taken, so what is left is shorter
      have hroom : ¬ limit ≤ ([] : List R).length := by
        rw [List.length_nil]
        omega
      have hshort : ∀ row' after, row' :: after <:+ rows →
          follow next fuel (some (key row')) = some <$> kept keep (row' :: after) := by
        intro row' after hsuffix
        have hat := hresume c row' after (hrows ▸ hsuffix.trans (List.suffix_cons _ _))
        rw [← hat]
        refine ih _ ?_
        have hle := hsuffix.length_le
        rw [hrows, List.length_cons] at hfuel
        rw [hat]
        omega
      have hrest : ∀ r : Option R, (page keep limit r.toList rows >>= fun p =>
          andRest (fun c => follow next fuel (some c)) (p.1, p.2.map key)) =
          (fun rs => some (r.toList ++ rs)) <$> kept keep rows := by
        intro r
        refine page_bind keep limit some _ (fun ret => rfl) rows r.toList fun ret row' after hsuffix => ?_
        rw [Option.map_some, andRest, hshort row' after hsuffix, Functor.map_map]
        rfl
      unfold page
      rw [if_neg hroom]
      simp only [bind_assoc, List.nil_append, hrest, kept, pure_bind, map_eq_pure_bind]

end Pages

/-! ## 2. The rows that are visited

The filter is run in a monad that writes down its argument. -/

section Visits

variable {ρ R C E : Type}

/-- The filter, with a log of the rows that it was called for. -/
def visiting (keep : ρ → Except E (Option R)) (row : ρ) : StateT (List ρ) (Except E) (Option R) :=
  fun seen => (keep row).map fun r => (r, seen ++ [row])

/-- **Every row is visited once, in order.** -/
theorem run_kept_visiting (keep : ρ → Except E (Option R)) (rows : List ρ) : ∀ seen,
    (kept (visiting keep) rows).run seen = (kept keep rows).map fun rs => (rs, seen ++ rows) := by
  induction rows with
  | nil =>
    intro seen
    rw [List.append_nil]
    rfl
  | cons row rows ih =>
    intro seen
    have hrest : ∀ seen, kept (visiting keep) rows seen =
      (kept keep rows).map fun rs => (rs, seen ++ rows) := ih
    simp only [kept, visiting, StateT.run, bind, StateT.bind, Except.bind, pure, Except.pure]
    cases keep row with
    | error e => rfl
    | ok r =>
      simp only [Except.map, hrest]
      cases kept keep rows with
      | error e => rfl
      | ok rs =>
        have hseen : seen ++ [row] ++ rows = seen ++ row :: rows := by simp
        exact congrArg (fun log => Except.ok (_, log)) hseen

/-- **A complete scan.**  From a start the pages give what the filter keeps of some rows, and they visit
each of these rows once in their order; a row whose filter fails is the last one.  They end. -/
def Complete (keep : ρ → Except E (Option R))
    (next : Option C → StateT (List ρ) (Except E) (List R × Option C)) (start : Option C)
    (rows : List ρ) : Prop :=
  ∀ fuel, rows.length < fuel → ∀ seen,
    (follow next fuel start).run seen = (kept keep rows).map fun rs => (some rs, seen ++ rows)

theorem complete_page (keep : ρ → Except E (Option R)) {limit : ℕ} (hlimit : 1 ≤ limit) (key : ρ → C)
    (rowsAt : Option C → List ρ)
    (hresume : ∀ c row after, row :: after <:+ rowsAt c → rowsAt (some (key row)) = row :: after)
    {next : Option C → StateT (List ρ) (Except E) (List R × Option C)}
    (hnext : ∀ c, next c = (fun p => (p.1, p.2.map key)) <$> page (visiting keep) limit [] (rowsAt c))
    (start : Option C) : Complete keep next start (rowsAt start) := by
  intro fuel hfuel seen
  rw [follow_page (visiting keep) hlimit key rowsAt hresume hnext fuel start hfuel, StateT.run_map,
    run_kept_visiting]
  cases kept keep (rowsAt start) with
  | error e => rfl
  | ok rs => rfl

end Visits

/-! ## 3. The rows of a table in a range

What the source calls `range`, with each kind of bound. -/

section Rows

variable {K V : Type} [LinearOrder K]

/-- The rows whose keys are in a range, in the order of the keys. -/
def rows (t : Table K V) (p : K → Bool) : List (K × V) :=
  ((t.keys.filter fun k => p k = true).sort (· ≤ ·)).filterMap fun k => (t.get k).map (k, ·)

theorem mem_rows {t : Table K V} {p : K → Bool} {row : K × V} :
    row ∈ rows t p ↔ t.get row.1 = some row.2 ∧ p row.1 = true := by
  simp only [rows, List.mem_filterMap, Finset.mem_sort, Finset.mem_filter, Option.map_eq_some_iff]
  constructor
  · rintro ⟨k, ⟨-, hp⟩, v, hv, rfl⟩
    exact ⟨hv, hp⟩
  · rintro ⟨hv, hp⟩
    exact ⟨row.1, ⟨Table.mem_keys_of_get hv, hp⟩, row.2, hv, rfl⟩

/-- The keys ascend. -/
theorem sorted_rows (t : Table K V) (p : K → Bool) : (rows t p).Pairwise fun a b => a.1 < b.1 := by
  refine List.Pairwise.filterMap _ ?_ (Finset.sortedLT_sort _).pairwise
  intro k k' hlt row hrow row' hrow'
  obtain ⟨v, -, rfl⟩ := Option.map_eq_some_iff.mp hrow
  obtain ⟨v', -, rfl⟩ := Option.map_eq_some_iff.mp hrow'
  exact hlt

/-- Where a scan is continued: the rows that are not in front of a row are those from it on. -/
theorem eq_of_suffix {ρ : Type} {r : ρ → ρ → Prop} (hasymm : ∀ a b, r a b → ¬ r b a) {l l' after : List ρ}
    {row : ρ} (hl : l.Pairwise r) (hl' : l'.Pairwise r) (hsuffix : row :: after <:+ l)
    (hmem : ∀ x, x ∈ l' ↔ x ∈ l ∧ ¬ r x row) : l' = row :: after := by
  obtain ⟨before, rfl⟩ := hsuffix
  obtain ⟨-, hafter, hfront⟩ := List.pairwise_append.mp hl
  have hnodup : ∀ {l : List ρ}, l.Pairwise r → l.Nodup := by
    intro l h
    refine List.Pairwise.imp (fun {a b} hr => ?_) h
    rintro rfl
    exact hasymm a a hr hr
  refine List.Perm.eq_of_pairwise (fun a b _ _ hab hba => absurd hba (hasymm a b hab)) hl' hafter
    ((List.perm_ext_iff_of_nodup (hnodup hl') (hnodup hafter)).mpr fun x => ?_)
  rw [hmem x, List.mem_append]
  constructor
  · rintro ⟨hx | hx, hnot⟩
    · exact absurd (hfront x hx row List.mem_cons_self) hnot
    · exact hx
  · intro hx
    refine ⟨.inr hx, fun hr => ?_⟩
    rcases List.mem_cons.mp hx with rfl | hx
    · exact hasymm x x hr hr
    · exact hasymm x row hr ((List.pairwise_cons.mp hafter).1 x hx)

/-- **Resuming**: the rest of a scan is the scan of what is at or beyond the cursor. -/
theorem rows_resume {t : Table K V} {p q : K → Bool} {row : K × V} {after : List (K × V)}
    (hsuffix : row :: after <:+ rows t p) (hq : ∀ k, q k = true ↔ p k = true ∧ row.1 ≤ k) :
    rows t q = row :: after := by
  refine eq_of_suffix (fun a b hab => not_lt_of_gt hab) (sorted_rows t p) (sorted_rows t q) hsuffix
    fun x => ?_
  rw [mem_rows, mem_rows, hq, not_lt, and_assoc]

theorem rows_resume_rev {t : Table K V} {p q : K → Bool} {row : K × V} {after : List (K × V)}
    (hsuffix : row :: after <:+ (rows t p).reverse) (hq : ∀ k, q k = true ↔ p k = true ∧ k ≤ row.1) :
    (rows t q).reverse = row :: after := by
  refine eq_of_suffix (r := fun a b => b.1 < a.1) (fun a b hab => not_lt_of_gt hab)
    (List.pairwise_reverse.mpr (sorted_rows t p)) (List.pairwise_reverse.mpr (sorted_rows t q)) hsuffix
    fun x => ?_
  rw [List.mem_reverse, List.mem_reverse, mem_rows, mem_rows, hq, not_lt, and_assoc]

end Rows

/-! ## 4. Exclusive cursors

Another way to resume: behind the last row that was returned. -/

section Exclusive

variable {E ρ C : Type}

/-- Two sorted lists with the same elements are the same. -/
theorem eq_of_mem_iff {r : ρ → ρ → Prop} (hasymm : ∀ a b, r a b → ¬ r b a) {l l' : List ρ} (hl : l.Pairwise r)
    (hl' : l'.Pairwise r) (hmem : ∀ x, x ∈ l ↔ x ∈ l') : l = l' := by
  have hnodup : ∀ {l : List ρ}, l.Pairwise r → l.Nodup := by
    intro l h
    refine List.Pairwise.imp (fun {a b} hr => ?_) h
    rintro rfl
    exact hasymm a a hr hr
  exact List.Perm.eq_of_pairwise (fun a b _ _ hab hba => absurd hba (hasymm a b hab)) hl hl'
    ((List.perm_ext_iff_of_nodup (hnodup hl) (hnodup hl')).mpr hmem)

/-- The rows beyond a row are those that come after it. -/
theorem eq_of_beyond {r : ρ → ρ → Prop} (hasymm : ∀ a b, r a b → ¬ r b a) {l l' before after : List ρ} {row : ρ}
    (hl : l.Pairwise r) (hl' : l'.Pairwise r) (hsplit : l = before ++ row :: after)
    (hmem : ∀ x, x ∈ l' ↔ x ∈ l ∧ r row x) : l' = after := by
  subst hsplit
  obtain ⟨-, hrest, hfront⟩ := List.pairwise_append.mp hl
  obtain ⟨hbehind, hafter⟩ := List.pairwise_cons.mp hrest
  refine eq_of_mem_iff hasymm hl' hafter fun x => ?_
  rw [hmem, List.mem_append, List.mem_cons]
  constructor
  · rintro ⟨hx | rfl | hx, hr⟩
    · exact absurd hr (hasymm _ _ (hfront x hx row List.mem_cons_self))
    · exact absurd hr (hasymm _ _ hr)
    · exact hx
  · exact fun hx => ⟨.inr (.inr hx), hbehind x hx⟩

/-- Pages are requested behind the last row of the page before, until one is empty: all rows, or nothing if
there was no end. -/
def turn (page : Option C → Except E (List ρ)) (key : ρ → C) : ℕ → Option C → Except E (Option (List ρ))
  | 0, _ => pure none
  | fuel + 1, cursor => do
    let ret ← page cursor
    match ret.getLast? with
    | none => pure (some [])
    | some row => do
      let rest ← turn page key fuel (some (key row))
      pure (rest.map (ret ++ ·))

/-- **Pages are complete**, if each is the first `limit` rows behind its cursor. -/
theorem turn_eq {page : Option C → Except E (List ρ)} {key : ρ → C} {limit : ℕ} (hlimit : 1 ≤ limit)
    (rowsAt : Option C → List ρ) (hpage : ∀ c, page c = .ok ((rowsAt c).take limit))
    (hresume : ∀ c before row after, rowsAt c = before ++ row :: after → rowsAt (some (key row)) = after) :
    ∀ (fuel : ℕ) (c : Option C), (rowsAt c).length < fuel → turn page key fuel c = .ok (some (rowsAt c)) := by
  intro fuel
  induction fuel with
  | zero => exact fun c h => absurd h (Nat.not_lt_zero _)
  | succ fuel ih =>
    intro c hfuel
    have hstart : turn page key (fuel + 1) c =
        (match ((rowsAt c).take limit).getLast? with
        | none => pure (some [])
        | some row => turn page key fuel (some (key row)) >>= fun rest =>
          pure (rest.map ((rowsAt c).take limit ++ ·))) := by
      rw [turn, hpage c]
      rfl
    rw [hstart]
    rcases List.eq_nil_or_concat ((rowsAt c).take limit) with hnil | ⟨before, row, htake⟩
    · have hempty : rowsAt c = [] := by
        rcases List.take_eq_nil_iff.mp hnil with hzero | hempty
        · omega
        · exact hempty
      rw [hempty, List.take_nil]
      rfl
    · rw [List.concat_eq_append] at htake
      have hsplit : rowsAt c = before ++ row :: (rowsAt c).drop limit := by
        calc rowsAt c = (rowsAt c).take limit ++ (rowsAt c).drop limit := (List.take_append_drop ..).symm
          _ = before ++ row :: (rowsAt c).drop limit := by
            rw [htake, List.append_assoc, List.singleton_append]
      have hrest := hresume c before row _ hsplit
      have hshort : (rowsAt (some (key row))).length < fuel := by
        have hlength := congrArg List.length hsplit
        rw [List.length_append, List.length_cons, ← hrest] at hlength
        omega
      rw [htake, List.getLast?_concat]
      dsimp only
      rw [ih _ hshort, hrest, ← htake]
      show Except.ok (some ((rowsAt c).take limit ++ (rowsAt c).drop limit)) = _
      rw [List.take_append_drop]

end Exclusive

end Rostra.Cursor
