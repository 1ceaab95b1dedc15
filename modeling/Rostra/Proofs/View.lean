/-
# Direct messages are kept as they first came, and every one can be paged to

Several copies of a message arrive: one for each device, the sender's own ones back through the network, and
different ones if the sender equivocates.

* Section 1: the history is a function of the copies in the order in which they were stored (`winner`), where only
  the first copy of a message counts, except for the conflict mark.
* Section 2: if an event carries one body, then the conversation index has exactly one row for each row of the
  history.  An index row is never overwritten, since it contains the event.
* Section 3: what a range of the index contains, and its order.
* Sections 4 and 5: pages of a conversation, and pages of conversations.  Both are the first rows behind a cursor
  (`Lib.Cursor`), so paging ends and returns everything.
* Section 6: the result.

The conflict mark is the one part of an entry that may change later; text, recipient, time and event are those of
the first copy. Which copy comes first is up to the network, and two readers may well retain different ones.
-/
import Rostra.Dm.View
import Rostra.Lib.Cursor

namespace Rostra.Dm

open Rostra Outcome

/-! ## 1. The first copy wins

A fold over the copies. The code does not compute it, it finds its result in the history row, and compares the next
copy with that. -/

/-- A message as it is stored: with the event that carried it. -/
structure Copy where
  body : MessageBody
  eventId : ShortEventId
  timestamp : Timestamp

def Copy.op (c : Copy) : DmOp := .store c.body c.eventId c.timestamp

def Copy.entry (c : Copy) : HistoryEntry :=
  ⟨c.body.sender, c.body.recipient, c.body.messageId, c.body.text, c.eventId, c.timestamp, false⟩

/-- The copies names another recipient or text. -/
def Copy.Differs (c d : Copy) : Prop := c.body.recipient ≠ d.body.recipient ∨ c.body.text ≠ d.body.text

instance (c d : Copy) : Decidable (c.Differs d) := inferInstanceAs (Decidable (_ ∨ _))

/-- **What is retained of some copies**: the first one, marked if another copy differs from it. -/
def winner (cs : List Copy) (key : MessageKey) : Option HistoryEntry :=
  (cs.find? fun c => c.body.key = key).map fun c =>
    { c.entry with conflicted := decide (∃ d ∈ cs, d.body.key = key ∧ c.Differs d) }

theorem winner_eq_some {cs : List Copy} {key : MessageKey} {e : HistoryEntry} (h : winner cs key = some e) :
    ∃ c ∈ cs, c.body.key = key ∧
      e = { c.entry with conflicted := decide (∃ d ∈ cs, d.body.key = key ∧ c.Differs d) } := by
  obtain ⟨c, hfind, rfl⟩ := Option.map_eq_some_iff.mp h
  have hkey : c.body.key = key := by simpa using List.find?_some hfind
  exact ⟨c, List.mem_of_find?_eq_some hfind, hkey, rfl⟩

/-- A copy of another message changes nothing. -/
theorem winner_snoc_of_ne {cs : List Copy} {c : Copy} {key : MessageKey} (h : c.body.key ≠ key) :
    winner (cs ++ [c]) key = winner cs key := by
  have hfind : (cs ++ [c]).find? (fun d => decide (d.body.key = key)) =
      cs.find? fun d => decide (d.body.key = key) := by
    rw [List.find?_append]
    simp [h]
  have hsame : ∀ w : Copy, (∃ d ∈ cs ++ [c], d.body.key = key ∧ w.Differs d) ↔
      ∃ d ∈ cs, d.body.key = key ∧ w.Differs d := by
    intro w
    constructor
    · rintro ⟨d, hd, hkey, hdiffers⟩
      rcases List.mem_append.mp hd with hd | hd
      · exact ⟨d, hd, hkey, hdiffers⟩
      · rw [List.mem_singleton.mp hd] at hkey
        exact absurd hkey h
    · rintro ⟨d, hd, hrest⟩
      exact ⟨d, List.mem_append_left _ hd, hrest⟩
  simp only [winner, hfind, hsame]

/-- **The first copy of a message** is retained as it is, with no mark. -/
theorem winner_snoc_new {cs : List Copy} {c : Copy} (h : winner cs c.body.key = none) :
    winner (cs ++ [c]) c.body.key = some c.entry := by
  have hnone : cs.find? (fun d => decide (d.body.key = c.body.key)) = none := by
    simpa [winner] using h
  have hfind : (cs ++ [c]).find? (fun d => decide (d.body.key = c.body.key)) = some c := by
    rw [List.find?_append, hnone]
    simp
  have hagree : ¬ ∃ d ∈ cs ++ [c], d.body.key = c.body.key ∧ c.Differs d := by
    rintro ⟨d, hd, hkey, hdiffers⟩
    rcases List.mem_append.mp hd with hd | hd
    · have hno := List.find?_eq_none.mp hnone d hd
      exact hno (decide_eq_true hkey)
    · rw [List.mem_singleton.mp hd] at hdiffers
      exact hdiffers.elim (absurd rfl) (absurd rfl)
  rw [winner, hfind, Option.map_some, decide_eq_false hagree]
  rfl

/-- **A later copy** can only leave a mark, and a mark that is there stays. -/
theorem winner_snoc_known {cs : List Copy} {c : Copy} {e : HistoryEntry} (h : winner cs c.body.key = some e) :
    winner (cs ++ [c]) c.body.key = some { e with
      conflicted := e.conflicted || decide (e.recipient ≠ c.body.recipient ∨ e.text ≠ c.body.text) } := by
  obtain ⟨w, hfind, rfl⟩ := Option.map_eq_some_iff.mp h
  have hfind' : (cs ++ [c]).find? (fun d => decide (d.body.key = c.body.key)) = some w := by
    rw [List.find?_append, hfind]
    rfl
  have hdiffer : (∃ d ∈ cs ++ [c], d.body.key = c.body.key ∧ w.Differs d) ↔
      (∃ d ∈ cs, d.body.key = c.body.key ∧ w.Differs d) ∨ w.Differs c := by
    constructor
    · rintro ⟨d, hd, hkey, hdiffers⟩
      rcases List.mem_append.mp hd with hd | hd
      · exact .inl ⟨d, hd, hkey, hdiffers⟩
      · rw [List.mem_singleton.mp hd] at hdiffers
        exact .inr hdiffers
    · rintro (⟨d, hd, hrest⟩ | hdiffers)
      · exact ⟨d, List.mem_append_left _ hd, hrest⟩
      · exact ⟨c, by simp, rfl, hdiffers⟩
  have hmark : decide (∃ d ∈ cs ++ [c], d.body.key = c.body.key ∧ w.Differs d) =
      (decide (∃ d ∈ cs, d.body.key = c.body.key ∧ w.Differs d) || decide (w.Differs c)) := by
    simp only [hdiffer, Bool.decide_or]
  rw [winner, hfind', Option.map_some, hmark]
  rfl

/-- **What storing a message does** to the history and to the conversation index: a known message may be marked,
and a new one is added to both. -/
theorem store_cases {t t' : DmTables} {c : Copy} (h : dmStep t c.op = .ok t') :
    (∃ e, t.history.get c.body.key = some e ∧ (e.recipient ≠ c.body.recipient ∨ e.text ≠ c.body.text) ∧
        t'.history = t.history.insert c.body.key { e with conflicted := true } ∧
        t'.historyByConversation = t.historyByConversation) ∨
      (∃ e, t.history.get c.body.key = some e ∧ ¬ (e.recipient ≠ c.body.recipient ∨ e.text ≠ c.body.text) ∧
        t' = t) ∨
      (t.history.get c.body.key = none ∧ t'.history = t.history.insert c.body.key c.entry ∧
        t'.historyByConversation = t.historyByConversation.insert c.entry.conversation c.body.key) := by
  replace h : dmStoreHistoryTx t c.body c.eventId c.timestamp = .ok t' := h
  unfold dmStoreHistoryTx at h
  cases hprevious : t.history.get c.body.key with
  | some e =>
    rw [hprevious] at h
    dsimp only at h
    split at h
    · next hdiffers =>
      cases h
      exact .inl ⟨e, rfl, hdiffers, rfl, rfl⟩
    · next hsame =>
      cases h
      exact .inr (.inl ⟨e, rfl, hsame, rfl⟩)
  | none =>
    rw [hprevious] at h
    dsimp only at h
    refine .inr (.inr ⟨rfl, ?_⟩)
    split at h
    · cases h
    split at h
    · obtain ⟨sequence, -, h⟩ := bind_eq_ok.mp h
      obtain ⟨counts, -, h⟩ := bind_eq_ok.mp h
      cases h
      exact ⟨rfl, rfl⟩
    · cases h
      exact ⟨rfl, rfl⟩

/-- **The history is what its copies make of it.** This is an equation for every key, so the history holds nothing
else. -/
def FirstWins (cs : List Copy) (t : DmTables) : Prop := ∀ key, t.history.get key = winner cs key

theorem FirstWins.store {cs : List Copy} {t t' : DmTables} {c : Copy} (h : FirstWins cs t)
    (hok : dmStep t c.op = .ok t') : FirstWins (cs ++ [c]) t' := by
  intro key
  by_cases hkey : c.body.key = key
  · subst hkey
    have hbefore := h c.body.key
    rcases store_cases hok with ⟨e, he, hdiffers, hhistory, -⟩ | ⟨e, he, hsame, rfl⟩ | ⟨hnone, hhistory, -⟩
    · rw [he] at hbefore
      rw [winner_snoc_known hbefore.symm, hhistory, Table.get_insert_self, decide_eq_true hdiffers, Bool.or_true]
    · rw [he] at hbefore
      rw [winner_snoc_known hbefore.symm, he, decide_eq_false hsame, Bool.or_false]
    · rw [hnone] at hbefore
      rw [winner_snoc_new hbefore.symm, hhistory, Table.get_insert_self]
  · have hother : t'.history.get key = t.history.get key := by
      rcases store_cases hok with ⟨e, -, -, hhistory, -⟩ | ⟨e, -, -, rfl⟩ | ⟨-, hhistory, -⟩
      · rw [hhistory, Table.get_insert_of_ne _ _ (Ne.symm hkey)]
      · rfl
      · rw [hhistory, Table.get_insert_of_ne _ _ (Ne.symm hkey)]
    rw [hother, h key, winner_snoc_of_ne hkey]

/-- **A retained message never changes**, but for its mark. -/
theorem winner_append {cs : List Copy} {key : MessageKey} {e : HistoryEntry} (h : winner cs key = some e)
    (more : List Copy) :
    ∃ conflicted, winner (cs ++ more) key = some { e with conflicted := conflicted } ∧
      (e.conflicted = true → conflicted = true) := by
  obtain ⟨w, hfind, rfl⟩ := Option.map_eq_some_iff.mp h
  have hfind' : (cs ++ more).find? (fun d => decide (d.body.key = key)) = some w := by
    rw [List.find?_append, hfind]
    rfl
  refine ⟨_, by rw [winner, hfind', Option.map_some], fun hmark => ?_⟩
  obtain ⟨d, hd, hrest⟩ := of_decide_eq_true hmark
  exact decide_eq_true ⟨d, List.mem_append_left _ hd, hrest⟩

/-! ## 2. The conversation index

The key of an index row is made of the pair, the time and the event. With one body to an event, it determines the
message; without that condition a second message could take the row of the first. -/

/-- An event carries one body, and has one time. -/
def OneBody (cs : List Copy) : Prop :=
  ∀ c ∈ cs, ∀ d ∈ cs, c.eventId = d.eventId → c.body = d.body ∧ c.timestamp = d.timestamp

/-- Times and event ids are numbers of 64 and of 128 bits. -/
def Stamped (cs : List Copy) : Prop := ∀ c ∈ cs, c.timestamp ≤ u64Max ∧ c.eventId ≤ shortEventIdMax

/-- **The index has one row for each row of the history**, under the key that the retained entry gives. -/
def IndexExact (t : DmTables) : Prop :=
  ∀ k key, t.historyByConversation.get k = some key ↔ ∃ e, t.history.get key = some e ∧ e.conversation = k

theorem IndexExact.store {cs all : List Copy} {t t' : DmTables} {c : Copy} (hone : OneBody all) (hcs : ∀ d ∈ cs, d ∈ all)
    (hc : c ∈ all) (hwins : FirstWins cs t) (h : IndexExact t) (hok : dmStep t c.op = .ok t') : IndexExact t' := by
  intro k key
  rcases store_cases hok with ⟨e, he, -, hhistory, hindex⟩ | ⟨e, -, -, rfl⟩ | ⟨hnone, hhistory, hindex⟩
  · -- a mark does not move the message
    rw [hindex, h, hhistory]
    by_cases hkey : key = c.body.key
    · rw [hkey, Table.get_insert_self, he]
      constructor
      · rintro ⟨_, he', hk⟩
        cases he'
        exact ⟨_, rfl, hk⟩
      · rintro ⟨_, he', hk⟩
        cases he'
        exact ⟨_, rfl, hk⟩
    · rw [Table.get_insert_of_ne _ _ hkey]
  · exact h k key
  · rw [hindex, hhistory]
    by_cases hk : k = c.entry.conversation
    · rw [hk, Table.get_insert_self]
      constructor
      · intro hsome
        cases hsome
        exact ⟨c.entry, Table.get_insert_self .., rfl⟩
      · rintro ⟨e, he, hconversation⟩
        by_cases hkey : key = c.body.key
        · rw [hkey]
        · -- another message at this place would have come with the same event
          rw [Table.get_insert_of_ne _ _ hkey, hwins key] at he
          obtain ⟨d, hd, hdkey, rfl⟩ := winner_eq_some he
          have hevent : d.eventId = c.eventId := congrArg (fun k : ConversationKey => k.2.2.2) hconversation
          have hbody := (hone d (hcs d hd) c hc hevent).1
          rw [← hdkey, hbody] at hkey
          exact absurd rfl hkey
    · rw [Table.get_insert_of_ne _ _ hk, h]
      by_cases hkey : key = c.body.key
      · rw [hkey, Table.get_insert_self, hnone]
        constructor
        · rintro ⟨_, he, -⟩
          cases he
        · rintro ⟨_, he, hconversation⟩
          cases he
          exact absurd hconversation.symm hk
      · rw [Table.get_insert_of_ne _ _ hkey]

/-- Entries have the stamps of their copies. -/
theorem FirstWins.stamped {cs : List Copy} {t : DmTables} (h : FirstWins cs t) (hstamped : Stamped cs)
    {key : MessageKey} {e : HistoryEntry} (he : t.history.get key = some e) :
    e.timestamp ≤ u64Max ∧ e.eventId ≤ shortEventIdMax := by
  rw [h key] at he
  obtain ⟨c, hc, -, rfl⟩ := winner_eq_some he
  exact hstamped c hc

/-! ## 3. Ranges

The index is ordered by the pair, then by time and event. A conversation is the range between the least and the
greatest key that its pair can have, and what lies between them are exactly the keys of the pair. -/

/-- The participants and the age that a key of the index is made of. -/
def ConversationKey.pair (k : ConversationKey) : RostraId ×ₗ RostraId := toLex (k.1, k.2.1)

def ConversationKey.age (k : ConversationKey) : Timestamp ×ₗ ShortEventId := toLex (k.2.2.1, k.2.2.2)

theorem order_lt_iff {k k' : ConversationKey} :
    k.order < k'.order ↔ k.pair < k'.pair ∨ k.pair = k'.pair ∧ k.age < k'.age := by
  obtain ⟨a, b, t, e⟩ := k
  obtain ⟨a', b', t', e'⟩ := k'
  simp only [ConversationKey.order, ConversationKey.pair, ConversationKey.age, Prod.Lex.toLex_lt_toLex,
    EmbeddingLike.apply_eq_iff_eq, Prod.mk.injEq]
  tauto

theorem order_le_iff {k k' : ConversationKey} :
    k.order ≤ k'.order ↔ k.pair < k'.pair ∨ k.pair = k'.pair ∧ k.age ≤ k'.age := by
  obtain ⟨a, b, t, e⟩ := k
  obtain ⟨a', b', t', e'⟩ := k'
  simp only [ConversationKey.order, ConversationKey.pair, ConversationKey.age, Prod.Lex.toLex_le_toLex,
    Prod.Lex.toLex_lt_toLex, EmbeddingLike.apply_eq_iff_eq, Prod.mk.injEq]
  tauto

section Ranges

variable {t : DmTables}

theorem mem_conversationRange {p : ConversationOrder → Bool} {row : ConversationKey × MessageKey} :
    row ∈ conversationRange t p ↔ t.historyByConversation.get row.1 = some row.2 ∧ p row.1.order = true := by
  simp only [conversationRange, List.mem_filterMap, Finset.mem_sort, Finset.mem_filter, Finset.mem_image,
    Option.map_eq_some_iff]
  constructor
  · rintro ⟨_, ⟨⟨k, -, rfl⟩, hp⟩, key, hkey, rfl⟩
    exact ⟨hkey, hp⟩
  · rintro ⟨hkey, hp⟩
    exact ⟨row.1.order, ⟨⟨row.1, Table.mem_keys_of_get hkey, rfl⟩, hp⟩, row.2, hkey, rfl⟩

/-- The keys ascend. -/
theorem sorted_conversationRange (t : DmTables) (p : ConversationOrder → Bool) :
    (conversationRange t p).Pairwise fun a b => a.1.order < b.1.order := by
  refine List.Pairwise.filterMap _ ?_ (Finset.sortedLT_sort _).pairwise
  intro k k' hlt row hrow row' hrow'
  obtain ⟨v, -, rfl⟩ := Option.map_eq_some_iff.mp hrow
  obtain ⟨v', -, rfl⟩ := Option.map_eq_some_iff.mp hrow'
  exact hlt

/-- Keys lie between the bounds of their pair. -/
theorem pairLower_le_iff (first second : RostraId) (k : ConversationKey) :
    pairLower first second ≤ k.order ↔ toLex (first, second) ≤ k.pair := by
  have hzero : ConversationKey.age (first, second, 0, 0) ≤ k.age := by
    refine Prod.Lex.toLex_le_toLex.mpr ?_
    rcases Nat.eq_zero_or_pos k.2.2.1 with h | h
    · exact .inr ⟨h.symm, Nat.zero_le _⟩
    · exact .inl h
  rw [pairLower, order_le_iff]
  exact (or_congr Iff.rfl (and_iff_left hzero)).trans le_iff_lt_or_eq.symm

theorem le_pairUpper_iff (first second : RostraId) {k : ConversationKey}
    (h : k.2.2.1 ≤ u64Max ∧ k.2.2.2 ≤ shortEventIdMax) :
    k.order ≤ pairUpper first second ↔ k.pair ≤ toLex (first, second) := by
  have hmax : k.age ≤ ConversationKey.age (first, second, u64Max, shortEventIdMax) := by
    refine Prod.Lex.toLex_le_toLex.mpr ?_
    rcases h.1.lt_or_eq with hlt | heq
    · exact .inl hlt
    · exact .inr ⟨heq, h.2⟩
  rw [pairUpper, order_le_iff]
  exact (or_congr Iff.rfl (and_iff_left hmax)).trans le_iff_lt_or_eq.symm

/-- Every row of the index can be resolved, and its key is in the bounds of its pair. -/
structure Resolves (t : DmTables) : Prop where
  index : IndexExact t
  stamped : ∀ key e, t.history.get key = some e → e.timestamp ≤ u64Max ∧ e.eventId ≤ shortEventIdMax

theorem Resolves.entry (h : Resolves t) {row : ConversationKey × MessageKey}
    (hrow : t.historyByConversation.get row.1 = some row.2) :
    ∃ e, t.history.get row.2 = some e ∧ e.conversation = row.1 := (h.index row.1 row.2).mp hrow

theorem Resolves.bounded (h : Resolves t) {row : ConversationKey × MessageKey}
    (hrow : t.historyByConversation.get row.1 = some row.2) :
    row.1.2.2.1 ≤ u64Max ∧ row.1.2.2.2 ≤ shortEventIdMax := by
  obtain ⟨e, he, hconversation⟩ := h.entry hrow
  rw [← hconversation]
  exact h.stamped _ _ he

end Ranges

/-! ## 4. One conversation

A page goes backwards in time, from a cursor that is strictly above it. -/

section OneConversation

variable {t : DmTables}

/-- The message of a row that resolves. -/
def entryAt (t : DmTables) (row : ConversationKey × MessageKey) : HistoryEntry :=
  (t.history.get row.2).getD ⟨row.2.sender, row.2.sender, 0, [], 0, 0, false⟩

theorem Resolves.resolve (h : Resolves t) {row : ConversationKey × MessageKey}
    (hrow : t.historyByConversation.get row.1 = some row.2) :
    t.history.get row.2 = some (entryAt t row) ∧ (entryAt t row).conversation = row.1 := by
  obtain ⟨e, he, hconversation⟩ := h.entry hrow
  have hentry : entryAt t row = e := by rw [entryAt, he, Option.getD_some]
  rw [hentry]
  exact ⟨he, hconversation⟩

/-- **No index row is without history**, so the error of the reader is out of reach. -/
theorem Resolves.mapM_historyOf (h : Resolves t) {rows : List (ConversationKey × MessageKey)}
    (hrows : ∀ row ∈ rows, t.historyByConversation.get row.1 = some row.2) :
    rows.mapM (historyOf t) = .ok (rows.map (entryAt t)) := by
  induction rows with
  | nil => rfl
  | cons row rows ih =>
    have hrow := (h.resolve (hrows row List.mem_cons_self)).1
    rw [List.mapM_cons, historyOf, hrow, ih fun row' hrow' => hrows row' (List.mem_cons_of_mem _ hrow')]
    rfl

/-- What the bounds of a page say of a row. -/
theorem Resolves.historyBounds_iff (h : Resolves t) {row : ConversationKey × MessageKey}
    (hrow : t.historyByConversation.get row.1 = some row.2) (first second : RostraId)
    (before : Option (Timestamp × ShortEventId)) :
    historyBounds first second before row.1.order = true ↔
      row.1.pair = toLex (first, second) ∧ ∀ c ∈ before, row.1.age < toLex c := by
  cases before with
  | none =>
    simp only [historyBounds, Bool.and_eq_true, decide_eq_true_eq, pairLower_le_iff,
      le_pairUpper_iff first second (h.bounded hrow), Option.not_mem_none, false_implies, implies_true, and_true]
    exact ⟨fun hp => le_antisymm hp.2 hp.1, fun hp => ⟨hp.ge, hp.le⟩⟩
  | some c =>
    obtain ⟨timestamp, event⟩ := c
    simp only [historyBounds, Bool.and_eq_true, decide_eq_true_eq, pairLower_le_iff, order_lt_iff, Option.mem_some_iff,
      forall_eq']
    constructor
    · rintro ⟨hle, hlt | ⟨hpair, hage⟩⟩
      · exact absurd hle (not_le_of_gt hlt)
      · exact ⟨hpair, hage⟩
    · rintro ⟨hpair, hage⟩
      exact ⟨hpair.ge, .inr ⟨hpair, hage⟩⟩

/-- The rows behind a cursor, newest first. -/
def rowsBefore (t : DmTables) (first second : RostraId) (before : Option (Timestamp × ShortEventId)) :
    List (ConversationKey × MessageKey) := (conversationRange t (historyBounds first second before)).reverse

theorem mem_rowsBefore (h : Resolves t) {first second : RostraId} {before : Option (Timestamp × ShortEventId)}
    {row : ConversationKey × MessageKey} :
    row ∈ rowsBefore t first second before ↔ t.historyByConversation.get row.1 = some row.2 ∧
      row.1.pair = toLex (first, second) ∧ ∀ c ∈ before, row.1.age < toLex c := by
  rw [rowsBefore, List.mem_reverse, mem_conversationRange]
  exact and_congr_right fun hrow => h.historyBounds_iff hrow first second before

theorem sorted_rowsBefore (t : DmTables) (first second : RostraId) (before : Option (Timestamp × ShortEventId)) :
    (rowsBefore t first second before).Pairwise fun a b => b.1.order < a.1.order :=
  List.pairwise_reverse.mpr (sorted_conversationRange t _)

/-- The cursor behind a message. -/
def HistoryEntry.stamp (e : HistoryEntry) : Timestamp × ShortEventId := (e.timestamp, e.eventId)

theorem age_conversation (e : HistoryEntry) : e.conversation.age = toLex e.stamp := rfl

/-- **A page** is the first messages behind its cursor, newest first. -/
theorem Resolves.dmHistoryWith_eq (h : Resolves t) (selfId peer : RostraId)
    (before : Option (Timestamp × ShortEventId)) {limit : ℕ} (hlimit : 1 ≤ limit) :
    dmHistoryWith t selfId peer before limit =
      .ok (((rowsBefore t (min selfId peer) (max selfId peer) before).map (entryAt t)).take (min limit 101)) := by
  have hroom : ¬ min limit 101 = 0 := by omega
  unfold dmHistoryWith
  dsimp only
  rw [if_neg hroom, ← List.map_take]
  exact h.mapM_historyOf fun row hrow => ((mem_rowsBefore h).mp (List.mem_of_mem_take hrow)).1

/-- **The next page** starts behind the last message of this one, since keys are strictly ordered. -/
theorem Resolves.resume (h : Resolves t) {first second : RostraId} {c : Option (Timestamp × ShortEventId)}
    {before after : List HistoryEntry} {e : HistoryEntry}
    (hsplit : (rowsBefore t first second c).map (entryAt t) = before ++ e :: after) :
    (rowsBefore t first second (some e.stamp)).map (entryAt t) = after := by
  obtain ⟨front, rest, hrows, -, hrest⟩ := List.map_eq_append_iff.mp hsplit
  obtain ⟨row, behind, rfl, rfl, rfl⟩ := List.map_eq_cons_iff.mp hrest
  refine congrArg (List.map (entryAt t)) (Cursor.eq_of_beyond (r := fun a b => b.1.order < a.1.order)
    (fun a b hab => not_lt_of_gt hab) (sorted_rowsBefore ..) (sorted_rowsBefore ..) hrows fun x => ?_)
  have hrow := (mem_rowsBefore h).mp (hrows ▸ List.mem_append_right _ List.mem_cons_self)
  have hage : row.1.age = toLex (entryAt t row).stamp := by
    rw [← age_conversation, (h.resolve hrow.1).2]
  rw [mem_rowsBefore h, mem_rowsBefore h, order_lt_iff, hrow.2.1, hage]
  constructor
  · rintro ⟨hx, hpair, hbehind⟩
    have hlt := hbehind _ rfl
    exact ⟨⟨hx, hpair, fun c hc => hlt.trans (hage ▸ hrow.2.2 c hc)⟩, .inr ⟨hpair, hlt⟩⟩
  · rintro ⟨⟨hx, hpair, -⟩, hlt | ⟨-, hlt⟩⟩
    · exact absurd hlt (hpair ▸ lt_irrefl _)
    · refine ⟨hx, hpair, fun c hc => ?_⟩
      cases hc
      exact hlt

end OneConversation

/-! ## 5. All conversations

The list of conversations has no table of its own: it is found by skipping from pair to pair in the index. -/

section Conversations

variable {t : DmTables}

/-- The pairs of participants behind a cursor, in order. -/
def pairsAfter (t : DmTables) (c : Option (RostraId ×ₗ RostraId)) : List (RostraId ×ₗ RostraId) :=
  ((t.historyByConversation.keys.image ConversationKey.pair).filter fun p => ∀ l ∈ c, l < p).sort (· ≤ ·)

theorem mem_pairsAfter {c : Option (RostraId ×ₗ RostraId)} {p : RostraId ×ₗ RostraId} :
    p ∈ pairsAfter t c ↔
      (∃ row : ConversationKey × MessageKey, t.historyByConversation.get row.1 = some row.2 ∧ row.1.pair = p) ∧
        ∀ l ∈ c, l < p := by
  simp only [pairsAfter, Finset.mem_sort, Finset.mem_filter, Finset.mem_image]
  refine and_congr_left' ⟨?_, ?_⟩
  · rintro ⟨k, hk, hp⟩
    obtain ⟨key, hkey⟩ := Table.mem_keys.mp hk
    exact ⟨(k, key), hkey, hp⟩
  · rintro ⟨row, hrow, hp⟩
    exact ⟨row.1, Table.mem_keys_of_get hrow, hp⟩

theorem sorted_pairsAfter (t : DmTables) (c : Option (RostraId ×ₗ RostraId)) :
    (pairsAfter t c).Pairwise (· < ·) := (Finset.sortedLT_sort _).pairwise

/-- The newest message of a pair. -/
def newest (t : DmTables) (p : RostraId ×ₗ RostraId) : HistoryEntry :=
  entryAt t ((rowsBefore t (ofLex p).1 (ofLex p).2 none).headD (((ofLex p).1, (ofLex p).2, 0, 0), toLex ((ofLex p).1, 0)))

/-- It is retained, it belongs to the pair and no message of the pair is younger. -/
theorem Resolves.newest_spec (h : Resolves t) {row : ConversationKey × MessageKey}
    (hrow : t.historyByConversation.get row.1 = some row.2) :
    ∃ top rest, rowsBefore t row.1.1 row.1.2.1 none = top :: rest ∧ newest t row.1.pair = entryAt t top ∧
      t.historyByConversation.get top.1 = some top.2 ∧ (entryAt t top).conversation = top.1 ∧
      top.1.pair = row.1.pair ∧ row.1.age ≤ top.1.age := by
  have hmem : row ∈ rowsBefore t row.1.1 row.1.2.1 none := (mem_rowsBefore h).mpr ⟨hrow, rfl, nofun⟩
  cases hrows : rowsBefore t row.1.1 row.1.2.1 none with
  | nil =>
    rw [hrows] at hmem
    cases hmem
  | cons top rest =>
    have htop := (mem_rowsBefore h).mp (hrows ▸ List.mem_cons_self : top ∈ rowsBefore t row.1.1 row.1.2.1 none)
    have hpair : top.1.pair = row.1.pair := htop.2.1
    have hage : row.1.age ≤ top.1.age := by
      have hsorted := sorted_rowsBefore t row.1.1 row.1.2.1 none
      rw [hrows] at hmem hsorted
      rcases List.mem_cons.mp hmem with rfl | hrest
      · exact le_rfl
      · rcases order_lt_iff.mp ((List.pairwise_cons.mp hsorted).1 row hrest) with hlt | ⟨-, hlt⟩
        · exact absurd hlt (hpair ▸ lt_irrefl _)
        · exact hlt.le
    refine ⟨top, rest, rfl, ?_, htop.1, (h.resolve htop.1).2, hpair, hage⟩
    show entryAt t ((rowsBefore t row.1.1 row.1.2.1 none).headD _) = _
    rw [hrows]
    rfl

/-- Where the next conversation starts. -/
def afterPair (c : Option (RostraId ×ₗ RostraId)) : Option ConversationOrder :=
  c.map fun p => pairUpper (ofLex p).1 (ofLex p).2

theorem Resolves.mem_after (h : Resolves t) {c : Option (RostraId ×ₗ RostraId)}
    {row : ConversationKey × MessageKey} :
    row ∈ conversationRange t (fun k => (afterPair c).all fun l => decide (l < k)) ↔
      t.historyByConversation.get row.1 = some row.2 ∧ ∀ p ∈ c, p < row.1.pair := by
  rw [mem_conversationRange]
  refine and_congr_right fun hrow => ?_
  cases c with
  | none => simp [afterPair]
  | some p =>
    have hiff := le_pairUpper_iff (ofLex p).1 (ofLex p).2 (h.bounded hrow)
    simp only [afterPair, Option.map_some, Option.all_some, decide_eq_true_eq, Option.mem_some_iff, forall_eq']
    rw [← not_le, hiff, not_le]
    rfl

/-- **The first key behind a cursor** is one of the next pair. -/
theorem Resolves.pairsAfter_cons (h : Resolves t) {c : Option (RostraId ×ₗ RostraId)}
    {row : ConversationKey × MessageKey} {rest : List (ConversationKey × MessageKey)}
    (hrows : conversationRange t (fun k => (afterPair c).all fun l => decide (l < k)) = row :: rest) :
    pairsAfter t c = row.1.pair :: pairsAfter t (some row.1.pair) := by
  have hrow := h.mem_after.mp (hrows ▸ List.mem_cons_self)
  have hsorted := sorted_conversationRange t fun k => (afterPair c).all fun l => decide (l < k)
  rw [hrows] at hsorted
  refine Cursor.eq_of_mem_iff (fun a b hab => not_lt_of_gt hab) (sorted_pairsAfter t c)
    (List.pairwise_cons.mpr ⟨fun x hx => (mem_pairsAfter.mp hx).2 _ rfl, sorted_pairsAfter ..⟩) fun x => ?_
  rw [List.mem_cons, mem_pairsAfter, mem_pairsAfter]
  constructor
  · rintro ⟨⟨other, hother, rfl⟩, hbehind⟩
    have hin : other ∈ row :: rest := hrows ▸ h.mem_after.mpr ⟨hother, hbehind⟩
    rcases List.mem_cons.mp hin with rfl | hin
    · exact .inl rfl
    · rcases order_lt_iff.mp ((List.pairwise_cons.mp hsorted).1 other hin) with hlt | ⟨heq, -⟩
      · refine .inr ⟨⟨other, hother, rfl⟩, fun p hp => ?_⟩
        cases hp
        exact hlt
      · exact .inl heq.symm
  · rintro (rfl | ⟨hother, hbehind⟩)
    · exact ⟨⟨row, hrow.1, rfl⟩, hrow.2⟩
    · exact ⟨hother, fun p hp => (hrow.2 p hp).trans (hbehind _ rfl)⟩

/-- **The loop returns the newest message of each pair** behind its cursor, in order. The induction is on the
number of conversations that are asked for. -/
theorem Resolves.conversationsLoop_eq (h : Resolves t) (n : ℕ) :
    ∀ (c : Option (RostraId ×ₗ RostraId)) (entries : List HistoryEntry),
      conversationsLoop t n (afterPair c) entries = .ok (entries ++ ((pairsAfter t c).take n).map (newest t)) := by
  induction n with
  | zero =>
    intro c entries
    rw [List.take_zero, List.map_nil, List.append_nil]
    rfl
  | succ n ih =>
    intro c entries
    unfold conversationsLoop
    cases hrows : conversationRange t (fun k => (afterPair c).all fun l => decide (l < k)) with
    | nil =>
      have hnone : pairsAfter t c = [] := by
        refine List.eq_nil_iff_forall_not_mem.mpr fun p hp => ?_
        obtain ⟨⟨row, hrow, rfl⟩, hbehind⟩ := mem_pairsAfter.mp hp
        have hin := h.mem_after.mpr ⟨hrow, hbehind⟩
        rw [hrows] at hin
        cases hin
      rw [hnone, List.take_nil, List.map_nil, List.append_nil]
      rfl
    | cons row rest =>
      have hcons := h.pairsAfter_cons hrows
      have hrow := (h.mem_after.mp (hrows ▸ List.mem_cons_self)).1
      obtain ⟨top, older, hbefore, hnewest, htop, -, -, -⟩ := h.newest_spec hrow
      obtain ⟨⟨first, second, timestamp, event⟩, key⟩ := row
      have hlast : (conversationRange t fun k => decide (pairLower first second ≤ k) &&
          decide (k ≤ pairUpper first second)).getLast? = some top := by
        rw [List.getLast?_eq_head?_reverse]
        have hrange : (conversationRange t fun k => decide (pairLower first second ≤ k) &&
            decide (k ≤ pairUpper first second)).reverse = top :: older := hbefore
        rw [hrange]
        rfl
      have hentry : historyOf t top = .ok (entryAt t top) := by
        rw [historyOf, (h.resolve htop).1]
      rw [List.head?_cons]
      dsimp only
      rw [hlast, hcons, List.take_succ_cons, List.map_cons, hnewest]
      dsimp only
      rw [hentry]
      have hrest := ih (some (ConversationKey.pair (first, second, timestamp, event))) (entries ++ [entryAt t top])
      rw [List.append_assoc, List.singleton_append] at hrest
      exact hrest

/-- Who takes part in the conversation of a message. -/
def HistoryEntry.participants (e : HistoryEntry) : RostraId × RostraId :=
  (min e.sender e.recipient, max e.sender e.recipient)

/-- **A page** is the newest messages of the first pairs behind its cursor. -/
theorem Resolves.dmConversations_eq (h : Resolves t) (after : Option (RostraId × RostraId)) (limit : ℕ) :
    dmConversations t after limit = .ok (((pairsAfter t (after.map toLex)).map (newest t)).take (min limit 64)) := by
  have hafter : (after.map fun pair => pairUpper pair.1 pair.2) = afterPair (after.map toLex) := by
    cases after with
    | none => rfl
    | some pair => rfl
  rw [dmConversations, hafter, h.conversationsLoop_eq, List.nil_append, List.map_take]

theorem Resolves.newest_participants (h : Resolves t) {p : RostraId ×ₗ RostraId}
    {c : Option (RostraId ×ₗ RostraId)} (hp : p ∈ pairsAfter t c) : toLex (newest t p).participants = p := by
  obtain ⟨⟨row, hrow, rfl⟩, -⟩ := mem_pairsAfter.mp hp
  obtain ⟨top, -, -, hnewest, -, hconversation, hpair, -⟩ := h.newest_spec hrow
  rw [hnewest, ← hpair, ← hconversation]
  rfl

theorem Resolves.resumePairs (h : Resolves t) {c : Option (RostraId ×ₗ RostraId)} {before after : List HistoryEntry}
    {e : HistoryEntry} (hsplit : (pairsAfter t c).map (newest t) = before ++ e :: after) :
    (pairsAfter t (some (toLex e.participants))).map (newest t) = after := by
  obtain ⟨front, rest, hpairs, -, hrest⟩ := List.map_eq_append_iff.mp hsplit
  obtain ⟨p, behind, rfl, rfl, rfl⟩ := List.map_eq_cons_iff.mp hrest
  have hp : p ∈ pairsAfter t c := hpairs ▸ List.mem_append_right _ List.mem_cons_self
  rw [h.newest_participants hp]
  refine congrArg (List.map (newest t)) (Cursor.eq_of_beyond (r := fun a b => a < b)
    (fun a b hab => not_lt_of_gt hab) (sorted_pairsAfter ..) (sorted_pairsAfter ..) hpairs fun x => ?_)
  rw [mem_pairsAfter, mem_pairsAfter]
  constructor
  · rintro ⟨hx, hbehind⟩
    have hlt := hbehind p rfl
    exact ⟨⟨hx, fun l hl => ((mem_pairsAfter.mp hp).2 l hl).trans hlt⟩, hlt⟩
  · rintro ⟨⟨hx, -⟩, hlt⟩
    refine ⟨hx, fun l hl => ?_⟩
    cases hl
    exact hlt

end Conversations

/-! ## 6. Runs

Both parts of the result hold in every state; the paging ones need that events carry one body. -/

/-- The copy that a transaction stores. -/
def DmOp.copy? : DmOp → Option Copy
  | .store body eventId timestamp => some ⟨body, eventId, timestamp⟩
  | _ => none

/-- The copies that were stored, in their order: those whose transactions committed. -/
def storedCopies (me : RostraId) (stores : List Copy) : List Copy :=
  (committed dmStep { idsSelf := some me } (stores.map Copy.op)).filterMap DmOp.copy?

theorem mem_storedCopies {me : RostraId} {stores : List Copy} {c : Copy} (h : c ∈ storedCopies me stores) :
    c ∈ stores := by
  obtain ⟨op, hop, hc⟩ := List.mem_filterMap.mp h
  obtain ⟨d, hd, rfl⟩ := List.mem_map.mp ((committed_sublist _ _).subset hop)
  cases hc
  exact hd

/-- The history after some more copies. -/
theorem run_firstWins (more : List Copy) {done : List DmOp} {t : DmTables}
    (h : FirstWins (done.filterMap DmOp.copy?) t) :
    FirstWins ((done ++ committed dmStep t (more.map Copy.op)).filterMap DmOp.copy?)
      (run dmStep t (more.map Copy.op)) := by
  refine run_history (J := fun ops t => FirstWins (ops.filterMap DmOp.copy?) t) _ _ _ (fun op hop done t t' h hok => ?_) h
  obtain ⟨c, -, rfl⟩ := List.mem_map.mp hop
  rw [List.filterMap_append]
  exact h.store hok

theorem reached_firstWins (me : RostraId) (stores : List Copy) :
    FirstWins (storedCopies me stores) (dmReached me (stores.map Copy.op)) :=
  @run_firstWins stores [] _ fun key => by
    show Table.get ∅ key = none
    simp

/-- The index after a run in which every event carries one body. -/
theorem reached_indexExact (me : RostraId) {stores : List Copy} (hone : OneBody stores) :
    IndexExact (dmReached me (stores.map Copy.op)) := by
  have hempty : FirstWins [] { idsSelf := some me } ∧ IndexExact { idsSelf := some me } := by
    constructor
    · intro key
      show Table.get ∅ key = none
      simp
    · intro k key
      simp
  have hrun := run_history (f := dmStep) (J := fun ops t => (∀ c ∈ ops.filterMap DmOp.copy?, c ∈ stores) ∧
    FirstWins (ops.filterMap DmOp.copy?) t ∧ IndexExact t) (stores.map Copy.op) [] _
    (fun op hop done t t' h hok => ?_) ⟨nofun, hempty⟩
  · exact hrun.2.2
  · obtain ⟨c, hc, rfl⟩ := List.mem_map.mp hop
    obtain ⟨hin, hwins, hindex⟩ := h
    rw [List.filterMap_append]
    refine ⟨fun d hd => ?_, hwins.store hok, hindex.store hone hin hc hwins hok⟩
    rcases List.mem_append.mp hd with hd | hd
    · exact hin d hd
    · rw [List.mem_singleton.mp hd]
      exact hc

/-- **Direct messages are kept as they first came, and every one can be paged to.**

For each message the history has the first copy that was stored, with a mark if a later one named another recipient
or text, and more copies change nothing but the mark.  If an event carries one body, the conversation index has one
row for each message; then no page fails, paging through a conversation returns each of its messages once, newest
first, and paging through the conversations returns each pair of participants once, with its newest message. -/
theorem history_first_winner (me : RostraId) (stores : List Copy) :
    (∀ key, (dmReached me (stores.map Copy.op)).history.get key = winner (storedCopies me stores) key) ∧
      (∀ (more : List Copy) key e, (dmReached me (stores.map Copy.op)).history.get key = some e →
        ∃ conflicted, (dmReached me ((stores ++ more).map Copy.op)).history.get key =
            some { e with conflicted := conflicted } ∧ (e.conflicted = true → conflicted = true)) ∧
      (OneBody stores → Stamped stores →
        IndexExact (dmReached me (stores.map Copy.op)) ∧
          (∀ peer before limit, ∃ es,
            dmHistoryWith (dmReached me (stores.map Copy.op)) me peer before limit = .ok es) ∧
          (∀ after limit, ∃ es, dmConversations (dmReached me (stores.map Copy.op)) after limit = .ok es) ∧
          (∀ peer limit, 1 ≤ limit → ∃ es : List HistoryEntry,
            (∀ fuel, es.length < fuel → Cursor.turn
              (fun before => dmHistoryWith (dmReached me (stores.map Copy.op)) me peer before limit)
              HistoryEntry.stamp fuel none = .ok (some es)) ∧
            es.Pairwise (fun e e' => toLex e'.stamp < toLex e.stamp) ∧
            ∀ e, e ∈ es ↔ (∃ key, (dmReached me (stores.map Copy.op)).history.get key = some e) ∧
              e.participants = (min me peer, max me peer)) ∧
          ∀ limit, 1 ≤ limit → ∃ es : List HistoryEntry,
            (∀ fuel, es.length < fuel → Cursor.turn
              (fun after => dmConversations (dmReached me (stores.map Copy.op)) after limit)
              HistoryEntry.participants fuel none = .ok (some es)) ∧
            es.Pairwise (fun e e' => toLex e.participants < toLex e'.participants) ∧
            (∀ e ∈ es, ∃ key, (dmReached me (stores.map Copy.op)).history.get key = some e) ∧
            ∀ key e, (dmReached me (stores.map Copy.op)).history.get key = some e →
              ∃ e' ∈ es, e'.participants = e.participants ∧ toLex e.stamp ≤ toLex e'.stamp) := by
  have hwins := reached_firstWins me stores
  refine ⟨hwins, fun more key e he => ?_, fun hone hstamped => ?_⟩
  · have hmore := @run_firstWins more (committed dmStep { idsSelf := some me } (stores.map Copy.op)) _ hwins
    have hrun : dmReached me ((stores ++ more).map Copy.op) =
        run dmStep (dmReached me (stores.map Copy.op)) (more.map Copy.op) := by
      rw [dmReached, List.map_append, run_append]
      rfl
    rw [hwins key] at he
    rw [hrun, hmore key, List.filterMap_append]
    exact winner_append he _
  · have hindex := reached_indexExact me hone
    generalize dmReached me (stores.map Copy.op) = t at hwins hindex ⊢
    have h : Resolves t := ⟨hindex, fun key e he =>
      hwins.stamped (fun c hc => hstamped c (mem_storedCopies hc)) he⟩
    refine ⟨hindex, fun peer before limit => ?_, fun after limit => ⟨_, h.dmConversations_eq after limit⟩,
      fun peer limit hlimit => ?_, fun limit hlimit => ?_⟩
    · cases limit with
      | zero => exact ⟨[], rfl⟩
      | succ limit => exact ⟨_, h.dmHistoryWith_eq me peer before (Nat.succ_pos limit)⟩
    · refine ⟨(rowsBefore t (min me peer) (max me peer) none).map (entryAt t), fun fuel hfuel => ?_, ?_, fun e => ?_⟩
      · exact Cursor.turn_eq (by omega : 1 ≤ min limit 101)
          (fun c => (rowsBefore t (min me peer) (max me peer) c).map (entryAt t))
          (fun c => h.dmHistoryWith_eq me peer c hlimit) (fun c before row after hsplit => h.resume hsplit) fuel none
          hfuel
      · refine List.pairwise_map.mpr ((sorted_rowsBefore ..).imp_of_mem fun {a b} ha hb hab => ?_)
        have ha' := (mem_rowsBefore h).mp ha
        have hb' := (mem_rowsBefore h).mp hb
        rw [← age_conversation, ← age_conversation, (h.resolve ha'.1).2, (h.resolve hb'.1).2]
        rcases order_lt_iff.mp hab with hlt | ⟨-, hlt⟩
        · exact absurd hlt (by rw [ha'.2.1, hb'.2.1]; exact lt_irrefl _)
        · exact hlt
      · rw [List.mem_map]
        constructor
        · rintro ⟨row, hrow, rfl⟩
          have hrow' := (mem_rowsBefore h).mp hrow
          refine ⟨⟨_, (h.resolve hrow'.1).1⟩, ?_⟩
          have hpair := hrow'.2.1
          rw [← (h.resolve hrow'.1).2] at hpair
          exact hpair
        · rintro ⟨⟨key, he⟩, hpair⟩
          have hrow := (hindex e.conversation key).mpr ⟨e, he, rfl⟩
          refine ⟨(e.conversation, key), (mem_rowsBefore h).mpr ⟨hrow, congrArg toLex hpair, nofun⟩, ?_⟩
          exact Option.some.inj ((h.resolve hrow).1.symm.trans he)
    · refine ⟨(pairsAfter t none).map (newest t), fun fuel hfuel => ?_, ?_, fun e he => ?_, fun key e he => ?_⟩
      · exact Cursor.turn_eq (by omega : 1 ≤ min limit 64)
          (fun c => (pairsAfter t (c.map toLex)).map (newest t)) (fun c => h.dmConversations_eq c limit)
          (fun c before row after hsplit => h.resumePairs hsplit) fuel none hfuel
      · refine List.pairwise_map.mpr ((sorted_pairsAfter t none).imp_of_mem fun {a b} ha hb hab => ?_)
        rw [h.newest_participants ha, h.newest_participants hb]
        exact hab
      · obtain ⟨p, hp, rfl⟩ := List.mem_map.mp he
        obtain ⟨⟨row, hrow, rfl⟩, -⟩ := mem_pairsAfter.mp hp
        obtain ⟨top, -, -, hnewest, htop, -, -, -⟩ := h.newest_spec hrow
        rw [hnewest]
        exact ⟨_, (h.resolve htop).1⟩
      · have hrow := (hindex e.conversation key).mpr ⟨e, he, rfl⟩
        obtain ⟨top, -, -, hnewest, -, hconversation, hpair, hage⟩ := @Resolves.newest_spec _ h (e.conversation, key) hrow
        refine ⟨_, List.mem_map_of_mem (mem_pairsAfter.mpr ⟨⟨(e.conversation, key), hrow, rfl⟩, nofun⟩), ?_, ?_⟩
        · rw [hnewest]
          rw [← hconversation] at hpair
          exact hpair
        · rw [hnewest]
          rw [← hconversation] at hage
          exact hage

def sampleReader : RostraId := toLex (0, 1)

/-- Two conversations.  In the first, the sender uses an identifier again, for another text. -/
def sampleCopies : List Copy :=
  [⟨⟨toLex (0, 2), sampleReader, 7, ['y']⟩, 11, 5⟩, ⟨⟨sampleReader, toLex (0, 3), 8, ['h']⟩, 12, 6⟩,
    ⟨⟨toLex (0, 2), sampleReader, 7, ['n']⟩, 13, 9⟩]

/-- The first text stays and is marked, and both conversations can be paged to. -/
theorem history_first_winner_sampleCopies :
    let t := dmReached sampleReader (sampleCopies.map Copy.op)
    let first : HistoryEntry := ⟨toLex (0, 2), sampleReader, 7, ['y'], 11, 5, true⟩
    let other : HistoryEntry := ⟨sampleReader, toLex (0, 3), 8, ['h'], 12, 6, false⟩
    t.history.get (toLex (toLex (0, 2), 7)) = some first ∧
      t.history.get (toLex (sampleReader, 8)) = some other ∧
      (∃ es : List HistoryEntry, (∀ fuel, es.length < fuel → Cursor.turn
          (fun before => dmHistoryWith t sampleReader (toLex (0, 2)) before 1) HistoryEntry.stamp fuel none =
            .ok (some es)) ∧ first ∈ es ∧ other ∉ es) ∧
      ∃ es : List HistoryEntry, (∀ fuel, es.length < fuel → Cursor.turn
          (fun after => dmConversations t after 1) HistoryEntry.participants fuel none = .ok (some es)) ∧
        (∃ e ∈ es, e.participants = first.participants) ∧ ∃ e ∈ es, e.participants = other.participants := by
  intro t first other
  have hone : OneBody sampleCopies := by
    intro c hc d hd he
    simp only [sampleCopies, List.mem_cons, List.not_mem_nil, or_false] at hc hd
    rcases hc with rfl | rfl | rfl <;> rcases hd with rfl | rfl | rfl <;> simp_all
  have hstamped : Stamped sampleCopies := by
    intro c hc
    simp only [sampleCopies, List.mem_cons, List.not_mem_nil, or_false] at hc
    rcases hc with rfl | rfl | rfl <;> decide
  obtain ⟨hwins, -, hpages⟩ := history_first_winner sampleReader sampleCopies
  obtain ⟨-, -, -, hhistory, hconversations⟩ := hpages hone hstamped
  have hfirst : t.history.get (toLex (toLex (0, 2), 7)) = some first := by
    rw [hwins]
    decide +kernel
  have hother : t.history.get (toLex (sampleReader, 8)) = some other := by
    rw [hwins]
    decide +kernel
  refine ⟨hfirst, hother, ?_, ?_⟩
  · obtain ⟨es, hturn, -, hes⟩ := hhistory (toLex (0, 2)) 1 le_rfl
    refine ⟨es, hturn, (hes first).mpr ⟨⟨_, hfirst⟩, by decide⟩, fun h => ?_⟩
    exact absurd ((hes other).mp h).2 (by decide)
  · obtain ⟨es, hturn, -, -, hes⟩ := hconversations 1 le_rfl
    obtain ⟨e, he, hpair, -⟩ := hes _ first hfirst
    obtain ⟨e', he', hpair', -⟩ := hes _ other hother
    exact ⟨es, hturn, ⟨e, he, hpair⟩, e', he', hpair'⟩

end Rostra.Dm
