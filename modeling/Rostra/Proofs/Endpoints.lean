/-
# The endpoints of an author

An author's endpoints are trimmed to ten after each announcement, so the table forgets when an
endpoint that fell out was last announced.  The rows are still a function of the set of
announcements: read as entries (time, node), they are the `board` of ten of this set, and the board
can be kept online.

Two things have to be shown, and the library provides the second one.

* The table and the entries are the same information: a node has one row, and the row of a node that is announced
again is raised, if the announcement is newer. * The rows after a trim are those of the board. This is what fails
for most ways to trim: if a row could fall out and come back with an older time, the result would depend on the
order.

Announcements that do not decode, and payloads of other kinds, leave the table alone.
-/
import Rostra.Lib.Board
import Rostra.Proofs.Latest

namespace Rostra.Db

open Rostra Outcome Newest Board

abbrev NodeRows := Table (RostraId × IrohNodeId) IrohNodeRecord

/-! ## 1. The rows as entries

The table has one row for each node; a set of entries with one for each identity is the same thing. -/

section Rows

variable {t : NodeRows} {a b : RostraId} {x : Timestamp ×ₗ IrohNodeId}

theorem mem_nodeOrders : x ∈ nodeOrders t a ↔
    (t.get (a, owner x)).map (·.announcementTs) = some (value x) := by
  unfold nodeOrders
  simp only [Finset.mem_image, Finset.mem_filter]
  constructor
  · rintro ⟨⟨b, addr⟩, ⟨hk, rfl⟩, rfl⟩
    obtain ⟨r, hr⟩ := Table.mem_keys.mp hk
    simp [owner, value, hr]
  · intro h
    obtain ⟨r, hr, hts⟩ := Option.map_eq_some_iff.mp h
    refine ⟨(a, owner x), ⟨Table.mem_keys_of_get hr, rfl⟩, ?_⟩
    rw [hr, Option.map_some, Option.getD_some, hts]
    rfl

/-- A node has one row. -/
theorem maxima_nodeOrders (t : NodeRows) (a : RostraId) :
    maxima (nodeOrders t a) = nodeOrders t a := by
  refine Finset.Subset.antisymm (maxima_subset _) fun x hx => mem_maxima.mpr ⟨hx, fun y hy hown => ?_⟩
  have hx := mem_nodeOrders.mp hx
  have hy := mem_nodeOrders.mp hy
  rw [hown, hx] at hy
  have hts : value y = value x := (Option.some.inj hy).symm
  exact le_of_eq (eq_of_value hts hown)

/-- The row of a node after it was announced. -/
def raised (row : Option IrohNodeRecord) (ts : Timestamp) : IrohNodeRecord :=
  { row.getD ⟨ts, {}⟩ with announcementTs := max (row.getD ⟨ts, {}⟩).announcementTs ts }

/-- **An announcement** raises the row of its node. -/
theorem nodeOrders_insert (t : NodeRows) (a : RostraId) (addr : IrohNodeId) (ts : Timestamp) :
    nodeOrders (t.insert (a, addr) (raised (t.get (a, addr)) ts)) a =
      maxima (insert (toLex (ts, addr)) (nodeOrders t a)) := by
  have hget : ∀ x : Timestamp ×ₗ IrohNodeId,
      x ∈ nodeOrders (t.insert (a, addr) (raised (t.get (a, addr)) ts)) a ↔
        if owner x = addr then (raised (t.get (a, addr)) ts).announcementTs = value x
        else x ∈ nodeOrders t a := by
    intro x
    rw [mem_nodeOrders, Table.get_insert]
    by_cases hown : owner x = addr
    · simp [hown]
    · simp [hown, mem_nodeOrders]
  have hsub : nodeOrders (t.insert (a, addr) (raised (t.get (a, addr)) ts)) a ⊆
      maxima (insert (toLex (ts, addr)) (nodeOrders t a)) := by
    intro x hx
    rw [hget] at hx
    split at hx
    · next hown =>
      refine mem_maxima.mpr ⟨?_, fun y hy hyx => le_of_value ?_ hyx⟩
      · -- the greater of the two is one of the two
        cases hg : t.get (a, addr) with
        | none =>
          rw [hg] at hx
          refine Finset.mem_insert.mpr (.inl (eq_of_value ?_ hown))
          rw [← hx]
          exact max_self ts
        | some r =>
          rw [hg] at hx
          rcases max_choice r.announcementTs ts with hmax | hmax
          · refine Finset.mem_insert_of_mem (mem_nodeOrders.mpr ?_)
            rw [hown, hg, ← hx]
            exact congrArg some hmax.symm
          · exact Finset.mem_insert.mpr (.inl (eq_of_value (hx.symm.trans hmax) hown))
      · rw [← hx]
        rcases Finset.mem_insert.mp hy with rfl | hy
        · exact le_max_right _ _
        · rw [mem_nodeOrders, hyx, hown] at hy
          obtain ⟨r, hr, hts⟩ := Option.map_eq_some_iff.mp hy
          rw [hr, ← hts]
          exact le_max_left _ _
    · next hown =>
      refine mem_maxima.mpr ⟨Finset.mem_insert_of_mem hx, fun y hy hyx => ?_⟩
      rcases Finset.mem_insert.mp hy with rfl | hy
      · exact absurd hyx.symm hown
      · rw [← maxima_nodeOrders] at hx hy
        exact (maxima_unique hy hx hyx).le
  refine Finset.Subset.antisymm hsub fun x hx => ?_
  -- the node of `x` has a row, and that row is an entry of `x`'s own identity
  obtain ⟨y, hy, hown⟩ : ∃ y ∈ nodeOrders (t.insert (a, addr) (raised (t.get (a, addr)) ts)) a,
      owner y = owner x := by
    by_cases hown : owner x = addr
    · refine ⟨toLex ((raised (t.get (a, addr)) ts).announcementTs, addr), ?_, hown.symm⟩
      rw [hget, owner_toLex, if_pos rfl, value_toLex]
    · refine ⟨x, ?_, rfl⟩
      rw [hget, if_neg hown]
      refine Finset.mem_of_mem_insert_of_ne (maxima_subset _ hx) ?_
      rintro rfl
      exact hown rfl
  rwa [← maxima_unique (hsub hy) hx hown]

/-- **Trimming** removes the one row too many. -/
theorem nodeOrders_trim (h : (nodeOrders t a).card ≤ 11) :
    nodeOrders (trimIrohNodesToLimitTx a t) a = newest 10 (nodeOrders t a) := by
  unfold trimIrohNodesToLimitTx
  split
  · next hmany =>
    cases hl : Table.least (nodeOrders t a) with
    | none =>
      rw [Table.least_none hl] at hmany
      simp at hmany
    | some last =>
      have hmem := Table.least_mem hl
      rw [newest_of_card_succ (by omega) hmem fun y hy => Table.least_le hl hy]
      ext x
      dsimp only
      have hkey : (a, owner x) = (a, (ofLex last).2) ↔ owner x = owner last := by simp [owner]
      rw [Finset.mem_erase, mem_nodeOrders, mem_nodeOrders, Table.get_remove]
      by_cases hown : owner x = owner last
      · rw [if_pos (hkey.mpr hown)]
        refine ⟨nofun, fun ⟨hne, hx⟩ => absurd ?_ hne⟩
        rw [← mem_nodeOrders, ← maxima_nodeOrders] at hx
        rw [← maxima_nodeOrders] at hmem
        exact maxima_unique hx hmem hown
      · rw [if_neg (hkey.not.mpr hown)]
        exact ⟨fun hx => ⟨fun h => hown (congrArg owner h), hx⟩, And.right⟩
  · next hfew => rw [newest_of_card_le (by omega)]

theorem nodeOrders_other {t' : NodeRows} (h : ∀ addr, t'.get (b, addr) = t.get (b, addr)) :
    nodeOrders t' b = nodeOrders t b := by
  ext x
  rw [mem_nodeOrders, mem_nodeOrders, h]

end Rows

/-! ## 2. Any order of announcements

One more announcement is one more entry, after which the board is taken again. -/

section Runs

variable [Primitives]

/-- The entry a payload has for an author: when it announces a node, and which. -/
def announcementBy (a : RostraId) (c : EventContent) : Option (Timestamp ×ₗ IrohNodeId) :=
  if c.event.event.author = a then (nodeOf c).map fun addr => toLex (c.event.event.timestamp, addr)
  else none

/-- The announcements of an author among some payloads, each one once. -/
def announcementsOf (items : List (EventContent × Timestamp)) (a : RostraId) :
    Finset (Timestamp ×ₗ IrohNodeId) :=
  (items.filterMap fun i => announcementBy a i.1).toFinset

/-- The rows of other authors are not touched. -/
theorem latestAfter_nodes_other {q : LatestPart} {c : EventContent} {a : RostraId}
    (h : announcementBy a c = none) :
    nodeOrders (latestAfter q c).nodes a = nodeOrders q.nodes a := by
  unfold latestAfter
  dsimp only
  cases hn : nodeOf c with
  | none => rfl
  | some addr =>
    have ha : a ≠ c.event.event.author := by
      rintro rfl
      rw [announcementBy, if_pos rfl, hn] at h
      cases h
    refine nodeOrders_other fun addr' => ?_
    have hne : ∀ addr'', (a, addr') ≠ (c.event.event.author, addr'') := fun addr'' heq =>
      ha (congrArg Prod.fst heq)
    dsimp only [Option.elim_some]
    unfold trimIrohNodesToLimitTx
    split
    · split
      · rw [Table.get_remove_of_ne _ (hne _), Table.get_insert_of_ne _ _ (hne _)]
      · rw [Table.get_insert_of_ne _ _ (hne _)]
    · rw [Table.get_insert_of_ne _ _ (hne _)]

/-- **One more payload**: the author's rows are the board of one more announcement. -/
theorem latestAfter_nodes {q : LatestPart} {c : EventContent} {a : RostraId}
    {x : Timestamp ×ₗ IrohNodeId} (h : announcementBy a c = some x)
    {s : Finset (Timestamp ×ₗ IrohNodeId)} (hq : nodeOrders q.nodes a = board 10 s) :
    nodeOrders (latestAfter q c).nodes a = board 10 (insert x s) := by
  unfold announcementBy at h
  split at h
  · next ha =>
    obtain ⟨addr, hn, rfl⟩ := Option.map_eq_some_iff.mp h
    have hins := nodeOrders_insert q.nodes a addr c.event.event.timestamp
    rw [hq] at hins
    have hcard : (maxima (insert (toLex (c.event.event.timestamp, addr)) (board 10 s))).card ≤ 11 := by
      have hsub := Finset.card_le_card
        (maxima_subset (insert (toLex (c.event.event.timestamp, addr)) (board 10 s)))
      have hins := Finset.card_insert_le (toLex (c.event.event.timestamp, addr)) (board 10 s)
      have hboard : (board 10 s).card ≤ 10 := by
        rw [board, card_newest]
        exact min_le_left _ _
      omega
    rw [board_insert, ← hins]
    rw [← hins] at hcard
    unfold latestAfter
    rw [hn, ha]
    exact nodeOrders_trim hcard
  · cases h

/-- Every state of a run of payloads has the board of its announcements. -/
theorem projectAll_nodeOrders (env : Env) (ctx : TxCtx) (items : List (EventContent × Timestamp))
    (a : RostraId) :
    nodeOrders (projectAll env ctx items).idsNodes a = board 10 (announcementsOf items a) := by
  induction items using List.reverseRecOn with
  | nil => rfl
  | append_singleton items i ih =>
    have hstep : nodeOrders (projectAll env ctx (items ++ [i])).idsNodes a =
        nodeOrders (latestAfter (latestPart (projectAll env ctx items)) i.1).nodes a := by
      rw [← (commit_latest env ctx (projectAll env ctx items) i.2 i.1).1, projectAll_concat]
      rfl
    rw [hstep]
    cases hx : announcementBy a i.1 with
    | none =>
      have hset : announcementsOf (items ++ [i]) a = announcementsOf items a := by
        simp [announcementsOf, hx]
      rw [hset, latestAfter_nodes_other hx]
      exact ih
    | some x =>
      have hset : announcementsOf (items ++ [i]) a = insert x (announcementsOf items a) := by
        ext y
        simp [announcementsOf, hx, eq_comm]
      rw [hset]
      exact latestAfter_nodes hx ih

/-- **Endpoint retention is order independent.**  After any list of payloads, in any order, with
repetitions and among payloads of other kinds, an author's rows are those of the ten greatest
(time, node) of his announcements, where each node counts with its latest announcement, and each row
has this time.  So another list with the same announcements leaves the same nodes with the same
times. -/
theorem endpoints_converge (env : Env) (ctx : TxCtx) (items : List (EventContent × Timestamp))
    (a : RostraId) :
    (∀ addr ts, ((projectAll env ctx items).idsNodes.get (a, addr)).map (·.announcementTs) = some ts ↔
      toLex (ts, addr) ∈ newest 10 (maxima (announcementsOf items a))) ∧
    ∀ (env' : Env) (ctx' : TxCtx) (items' : List (EventContent × Timestamp)),
      announcementsOf items' a = announcementsOf items a → ∀ addr,
        ((projectAll env' ctx' items').idsNodes.get (a, addr)).map (·.announcementTs) =
          ((projectAll env ctx items).idsNodes.get (a, addr)).map (·.announcementTs) := by
  have hrow : ∀ (env : Env) (ctx : TxCtx) (items : List (EventContent × Timestamp)) addr ts,
      ((projectAll env ctx items).idsNodes.get (a, addr)).map (·.announcementTs) = some ts ↔
        toLex (ts, addr) ∈ newest 10 (maxima (announcementsOf items a)) := by
    intro env ctx items addr ts
    rw [← board, ← projectAll_nodeOrders env ctx items a, mem_nodeOrders, owner_toLex, value_toLex]
  refine ⟨hrow env ctx items, fun env' ctx' items' hsame addr => Option.ext fun ts => ?_⟩
  rw [hrow, hrow, hsame]

end Runs

end Rostra.Db
