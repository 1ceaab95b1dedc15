/-
# Unread messages are counted exactly

Unread is a difference of two counters, and for all peers together the first of them is a sequence
number.  It is right as long as sequences have no gap, every counter counts its rows, and no marker
outlives its message.

* `Arrivals` is about the messages: the sequences in use are `1..n`, and three more tables say the
  same as the one by sequence.
* `Marked` is about the read markers and their two counters.
* Storing and marking change one row at a time.  The rebuild is a loop over the whole history;
  its invariant (`Rebuilt`) is `Arrivals` for the part that was visited, and it ends with the table
  it started from, because a message that has a sequence keeps it.

Messages that the history has are counted, not events: a message that comes again, in another event or from another
device, is one message. Read markers are kept for each session, and the badge of one session says nothing about
another.
-/
import Mathlib.Order.Interval.Finset.Nat
import Rostra.Dm.History
import Rostra.Lib.Index

namespace Rostra.Dm

open Rostra Outcome

/-! ## 1. The invariant

Two separate statements, since they change at different times: a message that arrives leaves the markers alone, and
a marker leaves the messages alone. -/

/-- **The sequences are `1..n`, and the other tables agree.** -/
structure Arrivals (me : RostraId) (n : ℕ) (t : DmTables) : Prop where
  own : t.idsSelf = some me
  senders : ∀ k e, t.history.get k = some e → e.sender = k.sender
  sequenced : ∀ k, (t.incomingSequence.get k).isSome ↔
    ∃ e, t.history.get k = some e ∧ e.recipient = me
  keys : ∀ s, (t.incoming.get s).isSome ↔ 1 ≤ s ∧ s ≤ n
  bound : n ≤ u64Max
  paired : Index.Paired t.incoming t.incomingSequence
  byPeer : ∀ p s k, t.incomingByPeer.get (p, s) = some k ↔ t.incoming.get s = some k ∧ k.sender = p
  counts : ∀ p, (t.incomingCountByPeer.get p).getD 0 = t.incoming.count fun _ k => k.sender = p

/-- **Markers belong to arrivals, and their counters count them.** -/
structure Marked (t : DmTables) : Prop where
  arrived : ∀ session s, (session, s) ∈ t.read → (t.incoming.get s).isSome
  total : ∀ session, (t.readCount.get session).getD 0 =
    t.incoming.count fun s _ => (session, s) ∈ t.read
  byPeer : ∀ session p, (t.readCountByPeer.get (session, p)).getD 0 =
    t.incoming.count fun s k => (session, s) ∈ t.read ∧ k.sender = p

theorem arrivals_new (me : RostraId) : Arrivals me 0 { idsSelf := some me } := by
  refine ⟨rfl, fun k e he => ?_, fun k => ?_, fun s => ?_, Nat.zero_le _, fun s k => ?_,
    fun p s k => ?_, fun p => ?_⟩
  · simp at he
  · simp
  · simp
    omega
  · simp
  · simp
  · simp

theorem marked_new (me : RostraId) : Marked { idsSelf := some me } := by
  refine ⟨fun session s hs => ?_, fun session => ?_, fun session p => ?_⟩
  · simp at hs
  · simp
  · simp

variable {me : RostraId} {n : ℕ} {t t' : DmTables}

theorem Arrivals.keys_eq (h : Arrivals me n t) : t.incoming.keys = Finset.Icc 1 n := by
  ext s
  rw [Table.mem_keys, ← Option.isSome_iff_exists, h.keys, Finset.mem_Icc]

/-- The last sequence is the number of arrivals. -/
theorem Arrivals.lastSequence_eq (h : Arrivals me n t) : lastSequence t = n := by
  unfold lastSequence
  rw [h.keys_eq]
  cases n with
  | zero => simp
  | succ n =>
    rw [Table.greatest_eq_some (k := n + 1) (by simp) fun k hk => (Finset.mem_Icc.mp hk).2]
    rfl

theorem Arrivals.card_eq (h : Arrivals me n t) : t.incoming.keys.card = n := by
  rw [h.keys_eq]
  simp

/-! ## 2. Counters

The code adds one to a counter with a check. What rules out the overflow is never the counter itself, but the
number of rows that it counts; so these lemmas take the bound as a hypothesis and the invariant provides it. -/

theorem checkedSucc_ensures (n : ℕ) :
    Ensures (checkedSucc n) (fun m => m = n + 1 ∧ n < u64Max) (fun e => e = .overflow) := by
  unfold checkedSucc
  split
  · next h => exact ⟨rfl, h⟩
  · rfl

theorem incrementTx_ensures {K : Type} [DecidableEq K] (counts : Table K ℕ) (k : K) :
    Ensures (incrementTx counts k) (fun counts' => ∀ k', (counts'.get k').getD 0 =
      (counts.get k').getD 0 + if k' = k then 1 else 0) (fun e => e = .overflow) := by
  unfold incrementTx
  refine (checkedSucc_ensures _).bind fun count hcount => ?_
  intro k'
  rw [Table.get_insert]
  split
  · next hk => rw [hcount.1, hk, Option.getD_some]
  · rfl

/-! ## 3. One arrival more

A message takes the sequence after the last one. That this is the number of arrivals is the invariant, and that no
row is overwritten follows from it. -/

/-- A message that is not here yet, under the next sequence. -/
theorem Arrivals.index (h : Arrivals me n t) {body : MessageBody} {entry : HistoryEntry}
    (hnew : t.history.get body.key = none) (hsender : entry.sender = body.sender)
    (hself : entry.recipient = me) (hroom : n < u64Max) (conversations) :
    Ensures (indexIncomingTx { t with
        historyByConversation := conversations
        history := t.history.insert body.key entry } body.sender body.key (n + 1))
      (fun t' => Arrivals me (n + 1) t' ∧ t'.read = t.read ∧ t'.readCount = t.readCount ∧
        t'.readCountByPeer = t.readCountByPeer ∧
        t'.incoming = t.incoming.insert (n + 1) body.key) (fun _ => True) := by
  have hkey : body.key.sender = body.sender := rfl
  have hnoseq : t.incomingSequence.get body.key = none := by
    have hno : ¬(t.incomingSequence.get body.key).isSome := by
      rw [h.sequenced, hnew]
      simp
    simpa using hno
  have hfree : t.incoming.get (n + 1) = none := by
    have hno : ¬(t.incoming.get (n + 1)).isSome := by
      rw [h.keys]
      omega
    simpa using hno
  unfold indexIncomingTx
  refine ((incrementTx_ensures _ _).mono (fun _ h => h) fun _ _ => trivial).bind
    fun counts hcounts => ?_
  refine ⟨⟨h.own, fun k e he => ?_, fun k => ?_, fun s => ?_, hroom, ?_, fun p s k => ?_,
    fun p => ?_⟩, rfl, rfl, rfl, rfl⟩
  · dsimp only at he
    rw [Table.get_insert] at he
    split at he
    · next hk =>
      cases he
      rw [hk, hkey, hsender]
    · exact h.senders k e he
  · dsimp only
    rw [Table.get_insert, Table.get_insert]
    split
    · simp [hself]
    · exact h.sequenced k
  · dsimp only
    rw [Table.get_insert]
    split
    · next hs =>
      subst hs
      simp
    · next hs =>
      rw [h.keys]
      omega
  · exact h.paired.insert hfree hnoseq
  · dsimp only
    rw [Table.get_insert, Table.get_insert]
    by_cases hs : s = n + 1
    · subst hs
      have hold : t.incomingByPeer.get (p, n + 1) ≠ some k := by
        rw [Ne, h.byPeer, hfree]
        simp
      by_cases hp : p = body.sender
      · subst hp
        simp only [if_true, Option.some.injEq]
        constructor
        · rintro rfl
          exact ⟨rfl, hkey⟩
        · exact And.left
      · rw [if_neg (by simp [hp]), if_pos rfl]
        refine ⟨fun hk => absurd hk hold, ?_⟩
        rintro ⟨hk, hkp⟩
        cases hk
        exact absurd (hkp.symm.trans hkey) hp
    · rw [if_neg (by simp [hs]), if_neg hs]
      exact h.byPeer p s k
  · dsimp only
    rw [hcounts p, h.counts p, Table.count_insert_new hfree, hkey]
    simp only [decide_eq_true_eq, eq_comm (a := p)]
    omega

/-- A row that is not marked changes no counter of markers. -/
theorem Marked.arrive (h : Marked t) {s : ℕ} {k : MessageKey} (hfree : t.incoming.get s = none)
    (hin : t'.incoming = t.incoming.insert s k) (hread : t'.read = t.read)
    (htotal : t'.readCount = t.readCount) (hpeer : t'.readCountByPeer = t.readCountByPeer) :
    Marked t' := by
  have hno : ∀ session, (session, s) ∉ t.read := by
    intro session hmem
    have hsome := h.arrived session s hmem
    rw [hfree] at hsome
    cases hsome
  refine ⟨fun session s' hs' => ?_, fun session => ?_, fun session p => ?_⟩
  · rw [hread] at hs'
    rw [hin, Table.get_insert]
    split
    · rfl
    · exact h.arrived session s' hs'
  · rw [htotal, h.total, hin, hread, Table.count_insert_new hfree]
    simp [hno]
  · rw [hpeer, h.byPeer, hin, hread, Table.count_insert_new hfree]
    simp [hno]

/-- Markers look at the arrivals and at nothing else of the messages. -/
theorem Marked.congr (h : Marked t) (hin : t'.incoming = t.incoming) (hread : t'.read = t.read)
    (htotal : t'.readCount = t.readCount) (hpeer : t'.readCountByPeer = t.readCountByPeer) :
    Marked t' := by
  refine ⟨fun session s hs => ?_, fun session => ?_, fun session p => ?_⟩
  · rw [hread] at hs
    rw [hin]
    exact h.arrived session s hs
  · rw [htotal, hin, hread]
    exact h.total session
  · rw [hpeer, hin, hread]
    exact h.byPeer session p

/-- Sequences `1..n` for some `n`, and markers that fit them. -/
def UnreadExact (me : RostraId) (t : DmTables) : Prop := (∃ n, Arrivals me n t) ∧ Marked t

/-- **Storing a message**, known or new, to this account or from it. -/
theorem dmStoreHistoryTx_exact (h : UnreadExact me t) (body : MessageBody) (eventId : ShortEventId)
    (timestamp : Timestamp) :
    Ensures (dmStoreHistoryTx t body eventId timestamp) (UnreadExact me) (fun _ => True) := by
  obtain ⟨⟨n, ha⟩, hm⟩ := h
  unfold dmStoreHistoryTx
  split
  · next previous hprevious =>
    split
    · -- a conflict only marks the entry that is there
      refine ⟨⟨n, ha.own, fun k e he => ?_, fun k => ?_, ha.keys, ha.bound, ha.paired, ha.byPeer,
        ha.counts⟩, hm.congr rfl rfl rfl rfl⟩
      · dsimp only at he
        rw [Table.get_insert] at he
        split at he
        · next hk =>
          cases he
          exact ha.senders k previous (hk ▸ hprevious)
        · exact ha.senders k e he
      · dsimp only
        rw [ha.sequenced, Table.get_insert]
        split
        · next hk =>
          rw [hk, hprevious]
          simp
        · exact Iff.rfl
    · exact ⟨⟨n, ha⟩, hm⟩
  next hnew =>
  split
  · trivial
  next selfId hself =>
  have hme : selfId = me := Option.some.inj (hself.symm.trans ha.own)
  subst hme
  dsimp only
  split
  · next hto =>
    refine ((checkedSucc_ensures _).mono (fun _ h => h) fun _ _ => trivial).bind
      fun sequence hsequence => ?_
    replace hsequence : sequence = n + 1 ∧ n < u64Max := by
      have hlast := ha.lastSequence_eq
      unfold lastSequence at hsequence hlast
      dsimp only at hsequence
      rwa [hlast] at hsequence
    rw [hsequence.1]
    have hfree : t.incoming.get (n + 1) = none := by
      have hno : ¬(t.incoming.get (n + 1)).isSome := by
        rw [ha.keys]
        omega
      simpa using hno
    refine (ha.index hnew rfl hto hsequence.2 _).mono (fun t' ht' => ?_) fun _ h => h
    obtain ⟨hart, hread, htotal, hpeer, hin⟩ := ht'
    exact ⟨⟨n + 1, hart⟩, hm.arrive hfree hin hread htotal hpeer⟩
  · next hfrom =>
    refine ⟨⟨n, ha.own, fun k e he => ?_, fun k => ?_, ha.keys, ha.bound, ha.paired, ha.byPeer,
      ha.counts⟩, hm.congr rfl rfl rfl rfl⟩
    · dsimp only at he
      rw [Table.get_insert] at he
      split at he
      · next hk =>
        cases he
        rw [hk]
        rfl
      · exact ha.senders k e he
    · dsimp only
      rw [ha.sequenced, Table.get_insert]
      split
      · next hk =>
        rw [hk, hnew]
        simp [hfrom]
      · exact Iff.rfl

/-! ## 4. Markers

A call is given a list of sequences, which may name one twice or name one that is marked already. `Marking` is the
invariant of its loop. -/

/-- The messages are as they were. -/
structure SameMessages (t t' : DmTables) : Prop where
  idsSelf : t'.idsSelf = t.idsSelf
  history : t'.history = t.history
  incoming : t'.incoming = t.incoming
  incomingByPeer : t'.incomingByPeer = t.incomingByPeer
  incomingSequence : t'.incomingSequence = t.incomingSequence
  incomingCountByPeer : t'.incomingCountByPeer = t.incomingCountByPeer

theorem Arrivals.congr (h : Arrivals me n t) (hs : SameMessages t t') : Arrivals me n t' := by
  obtain ⟨h1, h2, h3, h4, h5, h6⟩ := hs
  refine ⟨h1 ▸ h.own, h2 ▸ h.senders, ?_, h3 ▸ h.keys, h.bound, ?_, ?_, ?_⟩
  · rw [h2, h5]
    exact h.sequenced
  · rw [h3, h5]
    exact h.paired
  · rw [h3, h4]
    exact h.byPeer
  · rw [h3, h6]
    exact h.counts

/-- What a call has done after the sequences `done`. -/
structure Marking (t : DmTables) (session : Session) (done : List ℕ) (s : DmTables × ℕ) : Prop where
  same : SameMessages t s.1
  marked : Marked s.1
  read : ∀ x, x ∈ s.1.read ↔ x ∈ t.read ∨ (x.1 = session ∧ x.2 ∈ done)
  /-- Each marker is counted once, however often its sequence was given. -/
  number : s.2 = (done.toFinset.filter fun x => (session, x) ∉ t.read).card

/-- **One marker more.** -/
theorem Marked.mark (h : Marked t) {session : Session} {x : ℕ} {k : MessageKey}
    (hx : t.incoming.get x = some k) (hno : (session, x) ∉ t.read)
    {total : Table Session ℕ} {byPeer : Table (Session × RostraId) ℕ}
    (htotal : ∀ session', (total.get session').getD 0 =
      (t.readCount.get session').getD 0 + if session' = session then 1 else 0)
    (hpeer : ∀ y, (byPeer.get y).getD 0 =
      (t.readCountByPeer.get y).getD 0 + if y = (session, k.sender) then 1 else 0) :
    Marked { t with
      read := insert (session, x) t.read, readCount := total, readCountByPeer := byPeer } := by
  refine ⟨fun session' s hs => ?_, fun session' => ?_, fun session' p => ?_⟩
  · dsimp only at hs ⊢
    rcases Finset.mem_insert.mp hs with heq | hs
    · cases heq
      rw [hx]
      rfl
    · exact h.arrived session' s hs
  · dsimp only
    rw [htotal, h.total]
    have hoff : ∀ s' k', s' ≠ x → t.incoming.get s' = some k' →
        decide ((session', s') ∈ insert (session, x) t.read) = decide ((session', s') ∈ t.read) := by
      intro s' k' hne _
      simp [hne]
    by_cases hs : session' = session
    · subst hs
      have hchange := Table.count_change hx hoff (b := true) (c := false) (by simp) (by simp [hno])
      simp only [if_true, Bool.false_eq_true, if_false] at hchange ⊢
      omega
    · have hchange := Table.count_change hx hoff (b := decide ((session', x) ∈ t.read)) (by simp [hs])
        rfl
      rw [if_neg hs]
      omega
  · dsimp only
    rw [hpeer, h.byPeer]
    have hoff : ∀ s' k', s' ≠ x → t.incoming.get s' = some k' →
        decide ((session', s') ∈ insert (session, x) t.read ∧ k'.sender = p) =
          decide ((session', s') ∈ t.read ∧ k'.sender = p) := by
      intro s' k' hne _
      simp [hne]
    by_cases hs : session' = session ∧ p = k.sender
    · obtain ⟨rfl, rfl⟩ := hs
      have hchange := Table.count_change hx hoff (b := true) (c := false) (by simp) (by simp [hno])
      simp only [if_true, Bool.false_eq_true, if_false] at hchange ⊢
      omega
    · rw [if_neg (by simpa [Prod.ext_iff] using hs)]
      have hsame : ((session', x) ∈ insert (session, x) t.read ∧ k.sender = p) ↔
          ((session', x) ∈ t.read ∧ k.sender = p) := by
        simp only [Finset.mem_insert, Prod.mk.injEq, and_true]
        constructor
        · rintro ⟨hl | hl, hp⟩
          · exact absurd ⟨hl, hp.symm⟩ hs
          · exact ⟨hl, hp⟩
        · rintro ⟨hl, hp⟩
          exact ⟨.inr hl, hp⟩
      have hchange := Table.count_change hx hoff
        (b := decide ((session', x) ∈ t.read ∧ k.sender = p)) (decide_eq_decide.mpr hsame) rfl
      omega

/-- One sequence of the call. -/
theorem markReadTx_marking (ha : Arrivals me n t) {session : Session} {done : List ℕ}
    {s : DmTables × ℕ} (h : Marking t session done s) (x : ℕ) :
    Ensures (markReadTx session s x) (Marking t session (done ++ [x])) (fun _ => True) := by
  obtain ⟨u, marked⟩ := s
  have hmem : ∀ y, y ∈ (done ++ [x]).toFinset ↔ y ∈ done.toFinset ∨ y = x := by
    intro y
    simp [or_comm]
  unfold markReadTx
  dsimp only
  split
  · next hread =>
    -- marked before this call, or earlier in it
    have hold := (h.read (session, x)).mp hread
    refine ⟨h.same, h.marked, fun y => ?_, ?_⟩
    · rw [h.read, List.mem_append, List.mem_singleton]
      constructor
      · rintro (hy | ⟨hs, hy⟩)
        · exact .inl hy
        · exact .inr ⟨hs, .inl hy⟩
      · rintro (hy | ⟨hs, hy | hy⟩)
        · exact .inl hy
        · exact .inr ⟨hs, hy⟩
        · obtain ⟨y1, y2⟩ := y
          dsimp only at hs hy
          rw [hs, hy]
          exact hold
    · rw [h.number]
      refine congrArg Finset.card (Finset.ext fun y => ?_)
      rw [Finset.mem_filter, Finset.mem_filter, hmem]
      constructor
      · rintro ⟨hy, hno⟩
        exact ⟨.inl hy, hno⟩
      · rintro ⟨hy | rfl, hno⟩
        · exact ⟨hy, hno⟩
        · rcases hold with hold | ⟨-, hold⟩
          · exact absurd hold hno
          · exact ⟨by simpa using hold, hno⟩
  next hunread =>
  have hold : (session, x) ∉ t.read ∧ x ∉ done := by
    have hno := mt (h.read (session, x)).mpr hunread
    rw [not_or] at hno
    exact ⟨hno.1, fun hx => hno.2 ⟨rfl, hx⟩⟩
  split
  · trivial
  next key hkey =>
  split
  · trivial
  next entry hentry =>
  have hsender : entry.sender = key.sender := by
    rw [h.same.history] at hentry
    exact ha.senders key entry hentry
  refine ((incrementTx_ensures _ _).mono (fun _ h => h) fun _ _ => trivial).bind
    fun total htotal => ?_
  refine ((incrementTx_ensures _ _).mono (fun _ h => h) fun _ _ => trivial).bind
    fun byPeer hpeer => ?_
  rw [hsender] at hpeer
  refine ⟨⟨h.same.idsSelf, h.same.history, h.same.incoming, h.same.incomingByPeer,
    h.same.incomingSequence, h.same.incomingCountByPeer⟩, h.marked.mark hkey hunread htotal hpeer,
    fun y => ?_, ?_⟩
  · dsimp only
    rw [Finset.mem_insert, h.read, List.mem_append, List.mem_singleton, Prod.ext_iff]
    constructor
    · rintro (⟨hs, hy⟩ | hy | ⟨hs, hy⟩)
      · exact .inr ⟨hs, .inr hy⟩
      · exact .inl hy
      · exact .inr ⟨hs, .inl hy⟩
    · rintro (hy | ⟨hs, hy | hy⟩)
      · exact .inr (.inl hy)
      · exact .inr (.inr ⟨hs, hy⟩)
      · exact .inl ⟨hs, hy⟩
  · have hset : (done ++ [x]).toFinset.filter (fun y => (session, y) ∉ t.read) =
        insert x (done.toFinset.filter fun y => (session, y) ∉ t.read) := by
      ext y
      rw [Finset.mem_filter, Finset.mem_insert, Finset.mem_filter, hmem]
      constructor
      · rintro ⟨hy | rfl, hno⟩
        · exact .inr ⟨hy, hno⟩
        · exact .inl rfl
      · rintro (rfl | ⟨hy, hno⟩)
        · exact ⟨.inr rfl, hold.1⟩
        · exact ⟨.inl hy, hno⟩
    rw [hset, Finset.card_insert_of_notMem (by simp [hold.2])]
    exact congrArg (· + 1) h.number

/-- **A call marks what it was given**, each sequence once. Only so many sequences are looked at, and one that
nobody has is passed over. -/
theorem dmMarkRead_marking (ha : Arrivals me n t) (hm : Marked t) (session : Session)
    (sequences : List ℕ) :
    Ensures (dmMarkRead t session sequences)
      (Marking t session (sequences.take DM_MARK_READ_MAX)) (fun _ => True) := by
  unfold dmMarkRead
  have hfold := Ensures.foldlM_history (f := markReadTx session) (E := fun _ => True)
    (J := Marking t session) (sequences.take DM_MARK_READ_MAX) [] (t, 0)
    (fun x _ done s hs => markReadTx_marking ha hs x) ?_
  · simpa using hfold
  · refine ⟨⟨rfl, rfl, rfl, rfl, rfl, rfl⟩, hm, fun x => ?_, ?_⟩
    · simp
    · simp

/-- **Marking again changes nothing**, and reports that nothing was marked. -/
theorem dmMarkRead_again {session : Session} {sequences : List ℕ}
    (h : ∀ x ∈ sequences.take DM_MARK_READ_MAX, (session, x) ∈ t.read) :
    dmMarkRead t session sequences = .ok (t, 0) := by
  unfold dmMarkRead
  generalize sequences.take DM_MARK_READ_MAX = items at h
  induction items with
  | nil => rfl
  | cons x items ih =>
    have hx : markReadTx session (t, 0) x = .ok (t, 0) := if_pos (h x (by simp))
    rw [List.foldlM_cons, hx]
    exact ih fun y hy => h y (by simp [hy])

/-! ## 5. Rebuilding

The rebuild empties the tables of arrivals and fills them again from the history. It does not assume that every
message has a sequence: `Rebuildable` asks that those which exist are `1..n` for some `n`, and the loop gives the
next ones to the messages that have none. A rebuild in the middle of a run finds all of them, and gives back what
was there; a migration from an older schema finds none. -/

/-- The retained messages to this account. -/
def toMe (me : RostraId) (t : DmTables) : Finset MessageKey :=
  t.history.keys.filter fun k => (t.history.get k).any fun e => e.recipient = me

theorem mem_toMe {k : MessageKey} :
    k ∈ toMe me t ↔ ∃ e, t.history.get k = some e ∧ e.recipient = me := by
  rw [toMe, Finset.mem_filter, Table.mem_keys, Option.any_eq_true]
  constructor
  · rintro ⟨-, e, he, hr⟩
    exact ⟨e, he, by simpa using hr⟩
  · rintro ⟨e, he, hr⟩
    exact ⟨⟨e, he⟩, e, he, by simpa using hr⟩

/-- Sequences `1..n` are given to `n` messages. -/
structure Sequences (seq : Table MessageKey ℕ) : Prop where
  injective : ∀ k k' x, seq.get k = some x → seq.get k' = some x → k = k'
  range : ∀ x, (∃ k, seq.get k = some x) ↔ 1 ≤ x ∧ x ≤ seq.keys.card

/-- What the rebuild starts from: some of the messages have a sequence already. -/
structure Rebuildable (me : RostraId) (t : DmTables) : Prop where
  own : t.idsSelf = some me
  senders : ∀ k e, t.history.get k = some e → e.sender = k.sender
  mine : t.incomingSequence.keys ⊆ toMe me t
  sequences : Sequences t.incomingSequence
  bound : (toMe me t).card ≤ u64Max

/-- The source tables of the rebuild. -/
structure SameSources (t t' : DmTables) : Prop where
  idsSelf : t'.idsSelf = t.idsSelf
  history : t'.history = t.history
  read : t'.read = t.read
  readCount : t'.readCount = t.readCount
  readCountByPeer : t'.readCountByPeer = t.readCountByPeer

/-- **The loop invariant**: the visited messages are indexed, under sequences without a gap. A sequence that was
given before is never given to another message, because the next one is taken from behind the greatest. -/
structure Rebuilt (me : RostraId) (t : DmTables) (done : List MessageKey) (s : DmTables × ℕ) :
    Prop where
  sources : SameSources t s.1
  kept : ∀ k x, t.incomingSequence.get k = some x → s.1.incomingSequence.get k = some x
  mine : s.1.incomingSequence.keys ⊆ toMe me t
  visited : ∀ k ∈ done, k ∈ toMe me t → (s.1.incomingSequence.get k).isSome
  sequences : Sequences s.1.incomingSequence
  next : s.2 = min u64Max (s.1.incomingSequence.keys.card + 1)
  incoming : ∀ x k, s.1.incoming.get x = some k ↔ s.1.incomingSequence.get k = some x ∧ k ∈ done
  byPeer : ∀ p x k, s.1.incomingByPeer.get (p, x) = some k ↔
    s.1.incoming.get x = some k ∧ k.sender = p
  counts : ∀ p, (s.1.incomingCountByPeer.get p).getD 0 = s.1.incoming.count fun _ k => k.sender = p

/-- A new sequence extends the range by one. -/
theorem Sequences.extend {seq : Table MessageKey ℕ} (h : Sequences seq) {k : MessageKey}
    (hk : seq.get k = none) :
    Sequences (seq.insert k (seq.keys.card + 1)) ∧
      (seq.insert k (seq.keys.card + 1)).keys.card = seq.keys.card + 1 := by
  have hnew : k ∉ seq.keys := by
    intro hmem
    obtain ⟨x, hx⟩ := Table.mem_keys.mp hmem
    rw [hk] at hx
    cases hx
  have hcard : (seq.insert k (seq.keys.card + 1)).keys.card = seq.keys.card + 1 := by
    rw [Table.keys_insert, Finset.card_insert_of_notMem hnew]
  have hfresh : ∀ k', seq.get k' ≠ some (seq.keys.card + 1) := by
    intro k' hk'
    have := (h.range _).mp ⟨k', hk'⟩
    omega
  refine ⟨⟨fun k₁ k₂ x h₁ h₂ => ?_, fun x => ?_⟩, hcard⟩
  · rw [Table.get_insert] at h₁ h₂
    split at h₁
    · next e₁ =>
      cases h₁
      split at h₂
      · next e₂ => rw [e₁, e₂]
      · exact absurd h₂ (hfresh _)
    · split at h₂
      · cases h₂
        exact absurd h₁ (hfresh _)
      · exact h.injective k₁ k₂ x h₁ h₂
  · rw [hcard]
    constructor
    · rintro ⟨k', hk'⟩
      rw [Table.get_insert] at hk'
      split at hk'
      · cases hk'
        omega
      · have := (h.range x).mp ⟨k', hk'⟩
        omega
    · rintro ⟨hle, hge⟩
      by_cases hx : x = seq.keys.card + 1
      · exact ⟨k, by rw [Table.get_insert_self, hx]⟩
      · obtain ⟨k', hk'⟩ := (h.range x).mpr ⟨hle, by omega⟩
        refine ⟨k', ?_⟩
        rw [Table.get_insert_of_ne _ _ ?_]
        · exact hk'
        · rintro rfl
          rw [hk] at hk'
          cases hk'

/-- A message that is passed over. -/
theorem Rebuilt.skip {done : List MessageKey} {u : DmTables} {next : ℕ}
    (h : Rebuilt me t done (u, next)) {k : MessageKey} (hk : k ∉ toMe me t)
    (conversations : Table ConversationKey MessageKey) :
    Rebuilt me t (done ++ [k]) ({ u with historyByConversation := conversations }, next) := by
  refine ⟨⟨h.sources.idsSelf, h.sources.history, h.sources.read, h.sources.readCount,
    h.sources.readCountByPeer⟩, h.kept, h.mine, fun k' hk' hto => ?_, h.sequences, h.next,
    fun x k' => ?_, h.byPeer, h.counts⟩
  · rcases List.mem_append.mp hk' with hk' | hk'
    · exact h.visited k' hk' hto
    · rw [List.mem_singleton.mp hk'] at hto
      exact absurd hto hk
  · rw [h.incoming, List.mem_append, List.mem_singleton]
    constructor
    · rintro ⟨hx, hd⟩
      exact ⟨hx, .inl hd⟩
    · rintro ⟨hx, hd | rfl⟩
      · exact ⟨hx, hd⟩
      · exact absurd (h.mine (Table.mem_keys_of_get hx)) hk

/-- **A message that is indexed**, under its own sequence or a new one. Both branches of the code come down to
this. -/
theorem Rebuilt.index {done : List MessageKey} {u : DmTables} {next : ℕ}
    (h : Rebuilt me t done (u, next)) {k : MessageKey} (hk : k ∈ toMe me t) (hnew : k ∉ done)
    {x : ℕ} (next' : ℕ) (hkept : ∀ k' x', u.incomingSequence.get k' = some x' →
      (u.incomingSequence.insert k x).get k' = some x')
    (hseq : Sequences (u.incomingSequence.insert k x))
    (hnext : next' = min u64Max ((u.incomingSequence.insert k x).keys.card + 1))
    (conversations : Table ConversationKey MessageKey) :
    Ensures (indexIncomingTx { u with historyByConversation := conversations } k.sender k x)
      (fun u' => Rebuilt me t (done ++ [k]) (u', next')) (fun _ => True) := by
  have hfree : u.incoming.get x = none := by
    cases hget : u.incoming.get x with
    | none => rfl
    | some k' =>
      obtain ⟨hk', hd⟩ := (h.incoming x k').mp hget
      have heq := hseq.injective k' k x (hkept k' x hk') (Table.get_insert_self ..)
      exact absurd (heq ▸ hd) hnew
  unfold indexIncomingTx
  refine ((incrementTx_ensures _ _).mono (fun _ h => h) fun _ _ => trivial).bind
    fun counts hcounts => ?_
  have hseqget : ∀ k', (u.incomingSequence.insert k x).get k' =
      if k' = k then some x else u.incomingSequence.get k' := fun k' => Table.get_insert ..
  refine ⟨⟨h.sources.idsSelf, h.sources.history, h.sources.read, h.sources.readCount,
    h.sources.readCountByPeer⟩, fun k' x' hx' => hkept k' x' (h.kept k' x' hx'), ?_,
    fun k' hk' hto => ?_, hseq, hnext, fun x' k' => ?_, fun p x' k' => ?_, fun p => ?_⟩
  · dsimp only
    rw [Table.keys_insert]
    exact Finset.insert_subset hk h.mine
  · dsimp only
    rw [hseqget]
    split
    · rfl
    · next hne =>
      rcases List.mem_append.mp hk' with hk' | hk'
      · exact h.visited k' hk' hto
      · exact absurd (List.mem_singleton.mp hk') hne
  · dsimp only
    rw [Table.get_insert, List.mem_append, List.mem_singleton]
    constructor
    · intro hx'
      split at hx'
      · next hxx =>
        cases hx'
        exact ⟨by rw [hxx, Table.get_insert_self], .inr rfl⟩
      · obtain ⟨hs, hd⟩ := (h.incoming x' k').mp hx'
        exact ⟨hkept k' x' hs, .inl hd⟩
    · rintro ⟨hs, hd⟩
      rw [hseqget] at hs
      by_cases hkk : k' = k
      · rw [if_pos hkk] at hs
        cases hs
        rw [if_pos rfl, hkk]
      · rw [if_neg hkk] at hs
        rw [if_neg ?_]
        · exact (h.incoming x' k').mpr ⟨hs, hd.resolve_right hkk⟩
        · rintro rfl
          exact hkk (hseq.injective k' k x' (hkept k' x' hs) (Table.get_insert_self ..))
  · dsimp only
    rw [Table.get_insert, Table.get_insert]
    by_cases hx : x' = x
    · subst hx
      rw [if_pos rfl]
      by_cases hp : p = k.sender
      · subst hp
        rw [if_pos rfl, Option.some.injEq]
        constructor
        · rintro rfl
          exact ⟨rfl, rfl⟩
        · exact And.left
      · rw [if_neg (by simp [hp]), h.byPeer, hfree, Option.some.injEq]
        simp only [reduceCtorEq, false_and, false_iff, not_and]
        rintro rfl hkp
        exact hp hkp.symm
    · rw [if_neg (by simp [hx]), if_neg hx]
      exact h.byPeer p x' k'
  · dsimp only
    rw [hcounts p, h.counts p, Table.count_insert_new hfree]
    simp only [decide_eq_true_eq, eq_comm (a := p)]
    omega

/-- One turn of the loop. -/
theorem rebuildEntryTx_rebuilt (hr : Rebuildable me t) {done : List MessageKey} {s : DmTables × ℕ}
    (h : Rebuilt me t done s) {k : MessageKey} (hnew : k ∉ done) :
    Ensures (rebuildEntryTx me s k) (Rebuilt me t (done ++ [k])) (fun _ => True) := by
  obtain ⟨u, next⟩ := s
  unfold rebuildEntryTx
  dsimp only
  split
  · next hnone =>
    refine h.skip (fun hk => ?_) u.historyByConversation
    obtain ⟨e, he, -⟩ := mem_toMe.mp hk
    rw [← h.sources.history, hnone] at he
    cases he
  next entry hentry =>
  rw [h.sources.history] at hentry
  rw [hr.senders k entry hentry]
  split
  · next hme =>
    have hk : k ∈ toMe me t := mem_toMe.mpr ⟨entry, hentry, hme⟩
    split
    · next x hx =>
      have hsame : u.incomingSequence.insert k x = u.incomingSequence := Table.insert_get_self hx
      refine (h.index hk hnew (x := x) next (fun k' x' hx' => ?_) ?_ ?_ _).bind
        fun u' hu' => hu'
      · rw [hsame]
        exact hx'
      · rw [hsame]
        exact h.sequences
      · rw [hsame]
        exact h.next
    · next hx =>
      -- a message is still without a sequence, so there are fewer sequences than messages
      have hroom : u.incomingSequence.keys.card < u64Max := by
        refine Nat.lt_of_lt_of_le (Finset.card_lt_card ?_) hr.bound
        refine Finset.ssubset_iff_subset_ne.mpr ⟨h.mine, fun heq => ?_⟩
        rw [← heq] at hk
        obtain ⟨x, hx'⟩ := Table.mem_keys.mp hk
        rw [hx] at hx'
        cases hx'
      have hnext : next = u.incomingSequence.keys.card + 1 := by
        have := h.next
        dsimp only at this
        omega
      obtain ⟨hseq, hcard⟩ := h.sequences.extend hx
      rw [hnext]
      refine (h.index hk hnew _ (fun k' x' hx' => ?_) hseq ?_ _).bind fun u' hu' => hu'
      · rw [Table.get_insert_of_ne _ _ ?_]
        · exact hx'
        · rintro rfl
          rw [hx] at hx'
          cases hx'
      · rw [hcard]
  · next hother =>
    refine h.skip (fun hk => ?_) _
    obtain ⟨e, he, hto⟩ := mem_toMe.mp hk
    rw [hentry] at he
    cases he
    exact hother hto

/-- The greatest sequence is the number of sequences. -/
theorem Sequences.greatest_eq (h : Sequences t.incomingSequence) :
    greatestSequence t = t.incomingSequence.keys.card := by
  have himage : t.incomingSequence.keys.image (fun k => (t.incomingSequence.get k).getD 0) =
      Finset.Icc 1 t.incomingSequence.keys.card := by
    ext x
    rw [Finset.mem_image, Finset.mem_Icc, ← h.range x]
    constructor
    · rintro ⟨k, hk, rfl⟩
      obtain ⟨x, hx⟩ := Table.mem_keys.mp hk
      exact ⟨k, by rw [hx, Option.getD_some]⟩
    · rintro ⟨k, hk⟩
      exact ⟨k, Table.mem_keys_of_get hk, by rw [hk, Option.getD_some]⟩
  unfold greatestSequence
  rw [himage]
  cases t.incomingSequence.keys.card with
  | zero => simp
  | succ n =>
    rw [Table.greatest_eq_some (k := n + 1) (by simp) fun k hk => (Finset.mem_Icc.mp hk).2]
    rfl

/-- **The rebuild** indexes every message, and a message that has a sequence keeps it. The order of the history
decides who gets which of the new ones. -/
theorem rebuildDmHistoryIndexTx_spec (hr : Rebuildable me t) :
    Ensures (rebuildDmHistoryIndexTx t) (fun t' => SameSources t t' ∧
      (∀ k x, t.incomingSequence.get k = some x → t'.incomingSequence.get k = some x) ∧
      Arrivals me (toMe me t).card t') (fun _ => True) := by
  unfold rebuildDmHistoryIndexTx
  split
  · trivial
  next selfId hself =>
  have hme : selfId = me := Option.some.inj (hself.symm.trans hr.own)
  subst hme
  refine ((checkedSucc_ensures _).mono (fun _ h => h) fun _ _ => trivial).bind fun next hnext => ?_
  rw [hr.sequences.greatest_eq] at hnext
  have hloop := Ensures.foldlM_split (f := rebuildEntryTx selfId) (E := fun _ => True)
    (J := Rebuilt selfId t) (t.history.keys.sort (· ≤ ·))
    ({ t with historyByConversation := ∅, incoming := ∅, incomingByPeer := ∅,
              incomingCountByPeer := ∅ }, next) (fun done k rest hsplit s hs => ?_) ?_
  · refine hloop.bind fun s hs => ?_
    have hall : ∀ k ∈ toMe selfId t, k ∈ t.history.keys.sort (· ≤ ·) := by
      intro k hk
      rw [Finset.mem_sort]
      obtain ⟨e, he, -⟩ := mem_toMe.mp hk
      exact Table.mem_keys_of_get he
    have hkeys : s.1.incomingSequence.keys = toMe selfId t := by
      refine Finset.Subset.antisymm hs.mine fun k hk => ?_
      obtain ⟨x, hx⟩ := Option.isSome_iff_exists.mp (hs.visited k (hall k hk) hk)
      exact Table.mem_keys_of_get hx
    have hpaired : ∀ x k, s.1.incoming.get x = some k ↔ s.1.incomingSequence.get k = some x := by
      intro x k
      rw [hs.incoming]
      refine ⟨And.left, fun hx => ⟨hx, hall k ?_⟩⟩
      rw [← hkeys]
      exact Table.mem_keys_of_get hx
    refine ⟨hs.sources, hs.kept, hs.sources.idsSelf.trans hr.own, ?_, fun k => ?_, fun x => ?_,
      hr.bound, hpaired, hs.byPeer, hs.counts⟩
    · rw [hs.sources.history]
      exact hr.senders
    · rw [hs.sources.history, ← mem_toMe, ← hkeys, Table.mem_keys, Option.isSome_iff_exists]
    · rw [← hkeys, ← hs.sequences.range x, Option.isSome_iff_exists]
      exact exists_congr fun k => hpaired x k
  · have hnodup : (t.history.keys.sort (· ≤ ·)).Nodup := Finset.sort_nodup _ _
    rw [hsplit] at hnodup
    refine rebuildEntryTx_rebuilt hr hs fun hk => ?_
    exact (List.nodup_append.mp hnodup).2.2 k hk k (by simp) rfl
  · refine ⟨⟨rfl, rfl, rfl, rfl, rfl⟩, fun _ _ h => h, hr.mine, fun k hk => by simp at hk,
      hr.sequences, ?_, fun x k => by simp, fun p x k => by simp, fun p => by simp⟩
    dsimp only
    omega

theorem Arrivals.sequence_keys (h : Arrivals me n t) : t.incomingSequence.keys = toMe me t := by
  ext k
  rw [Table.mem_keys, ← Option.isSome_iff_exists, h.sequenced, mem_toMe]

theorem Arrivals.sequences (h : Arrivals me n t) : Sequences t.incomingSequence := by
  have hcard : t.incomingSequence.keys.card = n := by
    rw [← h.paired.card_keys, h.card_eq]
  refine ⟨fun k k' x hk hk' => ?_, fun x => ?_⟩
  · exact Option.some.inj (((h.paired x k).mpr hk).symm.trans ((h.paired x k').mpr hk'))
  · rw [hcard, ← h.keys x, Option.isSome_iff_exists]
    exact exists_congr fun k => (h.paired x k).symm

/-- A rebuild that finds every sequence. -/
theorem Arrivals.rebuildable (h : Arrivals me n t) (hid : t'.idsSelf = t.idsSelf)
    (hh : t'.history = t.history) (hs : t'.incomingSequence = t.incomingSequence ∨
      t'.incomingSequence = ∅) : Rebuildable me t' := by
  have hto : toMe me t' = toMe me t := by
    unfold toMe
    rw [hh]
  have hbound : (toMe me t').card ≤ u64Max := by
    rw [hto, ← h.sequence_keys, ← h.paired.card_keys, h.card_eq]
    exact h.bound
  rcases hs with hs | hs
  · refine ⟨hid.trans h.own, hh ▸ h.senders, ?_, hs ▸ h.sequences, hbound⟩
    rw [hs, hto, h.sequence_keys]
  · refine ⟨hid.trans h.own, hh ▸ h.senders, ?_, ?_, hbound⟩
    · rw [hs]
      exact Finset.empty_subset _
    · rw [hs]
      refine ⟨fun k k' x hk => by simp at hk, fun x => ?_⟩
      have hcard : (∅ : Table MessageKey ℕ).keys.card = 0 := rfl
      rw [hcard]
      simp
      omega

/-- Kept sequences give back the table by sequence. -/
theorem Arrivals.incoming_eq {n' : ℕ} (h : Arrivals me n t) (h' : Arrivals me n' t')
    (hh : t'.history = t.history)
    (hkept : ∀ k x, t.incomingSequence.get k = some x → t'.incomingSequence.get k = some x) :
    t'.incoming = t.incoming := by
  refine Table.ext fun x => Option.ext fun k => ?_
  rw [h'.paired, h.paired]
  constructor
  · intro hk
    have hto : (t.incomingSequence.get k).isSome := by
      rw [h.sequenced, ← hh, ← h'.sequenced, hk]
      rfl
    obtain ⟨y, hy⟩ := Option.isSome_iff_exists.mp hto
    have hyx : some y = some x := (hkept k y hy).symm.trans hk
    rw [hy, hyx]
  · exact hkept k x

theorem rebuildDmHistoryIndexTx_exact (h : UnreadExact me t) (hid : t'.idsSelf = t.idsSelf)
    (hh : t'.history = t.history) (hs : t'.incomingSequence = t.incomingSequence)
    (hread : t'.read = t.read) (htotal : t'.readCount = t.readCount)
    (hpeer : t'.readCountByPeer = t.readCountByPeer) :
    Ensures (rebuildDmHistoryIndexTx t') (UnreadExact me) (fun _ => True) := by
  obtain ⟨⟨n, ha⟩, hm⟩ := h
  refine (rebuildDmHistoryIndexTx_spec (ha.rebuildable hid hh (.inl hs))).mono (fun u hu => ?_)
    fun _ h => h
  obtain ⟨hsame, hkept, hu⟩ := hu
  refine ⟨⟨_, hu⟩, hm.congr ?_ (hsame.read.trans hread) (hsame.readCount.trans htotal)
    (hsame.readCountByPeer.trans hpeer)⟩
  exact ha.incoming_eq hu (hsame.history.trans hh) (hs ▸ hkept)

/-! ## 6. Whole runs

The invariant holds after any transactions, and the badge is computed from it. -/

/-- **Every transaction** keeps the counters exact, a migration included. -/
theorem dmStep_exact (h : UnreadExact me t) (o : DmOp) :
    Ensures (dmStep t o) (UnreadExact me) (fun _ => True) := by
  cases o with
  | store body eventId timestamp => exact dmStoreHistoryTx_exact h body eventId timestamp
  | markRead session sequences =>
    obtain ⟨⟨n, ha⟩, hm⟩ := h
    refine (dmMarkRead_marking ha hm session sequences).bind fun s hs => ?_
    exact ⟨⟨n, ha.congr hs.same⟩, hs.marked⟩
  | rebuild => exact rebuildDmHistoryIndexTx_exact h rfl rfl rfl rfl rfl rfl
  | migrate sourceVer =>
    simp only [dmStep, migrateDmTx]
    split
    · obtain ⟨⟨n, ha⟩, -⟩ := h
      rw [ha.own]
      exact ⟨⟨0, arrivals_new me⟩, marked_new me⟩
    split
    · obtain ⟨⟨n, ha⟩, -⟩ := h
      have hstart : Rebuildable me { idsSelf := t.idsSelf, history := t.history } :=
        ha.rebuildable rfl rfl (.inr rfl)
      refine (rebuildDmHistoryIndexTx_spec hstart).mono (fun u hu => ?_) fun _ h => h
      obtain ⟨hsame, -, hu⟩ := hu
      refine ⟨⟨_, hu⟩, fun session s hs => ?_, fun session => ?_, fun session p => ?_⟩
      · rw [hsame.read] at hs
        simp at hs
      · rw [hsame.readCount, hsame.read, Table.count_eq_sum, Table.sum_eq_zero]
        · rfl
        · simp
      · rw [hsame.readCountByPeer, hsame.read, Table.count_eq_sum, Table.sum_eq_zero]
        · rfl
        · simp
    · exact rebuildDmHistoryIndexTx_exact h rfl rfl rfl rfl rfl rfl

theorem dmReached_exact (me : RostraId) (ops : List DmOp) : UnreadExact me (dmReached me ops) :=
  run_invariant ops _ (fun o _ _ _ h hok => (dmStep_exact h o).of_ok hok)
    ⟨⟨0, arrivals_new me⟩, marked_new me⟩

/-- The arrivals of one peer, or of all, that the session has not marked. -/
def unread (t : DmTables) (session : Session) (peer : Option RostraId) : ℕ :=
  t.incoming.count fun s k => (session, s) ∉ t.read ∧ peer.all fun p => k.sender = p

/-- Read and unread make up the arrivals. -/
theorem unread_add (t : DmTables) (session : Session) (peer : Option RostraId) :
    t.incoming.count (fun s k => (session, s) ∈ t.read ∧ peer.all fun p => k.sender = p) +
      unread t session peer = t.incoming.count fun _ k => peer.all fun p => k.sender = p := by
  have hsplit := Table.count_split t.incoming (fun s _ => (session, s) ∈ t.read)
    fun _ k => peer.all fun p => k.sender = p
  unfold unread
  simpa only [Bool.decide_and, decide_not, Bool.decide_eq_true] using hsplit

/-- **The badge is right**, and the subtraction it is made of is not cut off, since markers belong to arrivals. -/
theorem UnreadExact.count (h : UnreadExact me t) (session : Session) (peer : Option RostraId)
    (limit : ℕ) : dmCountUnread t session peer limit = min limit (unread t session peer) := by
  obtain ⟨⟨n, ha⟩, hm⟩ := h
  have hadd := unread_add t session peer
  unfold dmCountUnread
  cases peer with
  | some p =>
    simp only [Option.all_some, decide_eq_true_eq] at hadd ⊢
    rw [ha.counts p, hm.byPeer session p]
    omega
  | none =>
    simp only [Option.all_none, and_true] at hadd ⊢
    rw [Table.count_true, ha.card_eq] at hadd
    rw [ha.lastSequence_eq, hm.total session]
    omega

theorem UnreadExact.covered (h : UnreadExact me t) (session : Session) :
    (t.readCount.get session).getD 0 ≤ lastSequence t ∧
      ∀ p, (t.readCountByPeer.get (session, p)).getD 0 ≤ (t.incomingCountByPeer.get p).getD 0 := by
  obtain ⟨⟨n, ha⟩, hm⟩ := h
  refine ⟨?_, fun p => ?_⟩
  · have hadd := unread_add t session none
    simp only [Option.all_none, and_true] at hadd
    rw [Table.count_true, ha.card_eq] at hadd
    rw [ha.lastSequence_eq, hm.total session]
    omega
  · have hadd := unread_add t session (some p)
    simp only [Option.all_some, decide_eq_true_eq] at hadd
    rw [ha.counts p, hm.byPeer session p]
    omega

/-- A message that was not here is kept under its key, with its recipient. -/
theorem dmStoreHistoryTx_kept {body : MessageBody} (hnew : t.history.get body.key = none)
    (eventId : ShortEventId) (timestamp : Timestamp) :
    Ensures (dmStoreHistoryTx t body eventId timestamp) (fun t' => ∃ e,
      t'.history.get body.key = some e ∧ e.recipient = body.recipient) (fun _ => True) := by
  unfold dmStoreHistoryTx
  rw [hnew]
  dsimp only
  split
  · trivial
  split
  · refine (ensures_true _).bind fun sequence _ => ?_
    unfold indexIncomingTx
    exact (ensures_true _).bind fun counts _ => ⟨_, Table.get_insert_self .., rfl⟩
  · exact ⟨_, Table.get_insert_self .., rfl⟩

/-- **Direct-message accounting is exact.**  After any transactions: exactly the messages of the
history that were sent to this account have a sequence; sequences are `1..n`, the other indexes
agree with them, every counter counts its rows, markers belong to arrivals, and the unread count is
the number of arrivals without a marker.  A new message enters the history.  Marking adds exactly the
markers it was given, counts each of them once, changes nothing the second time, and nothing at all
when it fails. -/
theorem dmUnread_exact (me : RostraId) (ops : List DmOp) :
    let t := dmReached me ops
    (∀ k, (∃ s, t.incomingSequence.get k = some s) ↔
        ∃ e, t.history.get k = some e ∧ e.sender = k.sender ∧ e.recipient = me) ∧
      (∀ body eventId timestamp, t.history.get body.key = none →
        Ensures (dmStoreHistoryTx t body eventId timestamp) (fun t' => ∃ e,
          t'.history.get body.key = some e ∧ e.recipient = body.recipient) (fun _ => True)) ∧
      (∃ n, ∀ s, (∃ k, t.incoming.get s = some k) ↔ 1 ≤ s ∧ s ≤ n) ∧
      (∀ s k, t.incoming.get s = some k ↔ t.incomingSequence.get k = some s) ∧
      (∀ p s k, t.incomingByPeer.get (p, s) = some k ↔
        t.incoming.get s = some k ∧ k.sender = p) ∧
      (∀ p, (t.incomingCountByPeer.get p).getD 0 = t.incoming.count fun _ k => k.sender = p) ∧
      (∀ session s, (session, s) ∈ t.read → ∃ k, t.incoming.get s = some k) ∧
      (∀ session, (t.readCount.get session).getD 0 =
          t.incoming.count (fun s _ => (session, s) ∈ t.read) ∧
        ∀ p, (t.readCountByPeer.get (session, p)).getD 0 =
          t.incoming.count fun s k => (session, s) ∈ t.read ∧ k.sender = p) ∧
      (∀ session peer limit, dmCountUnread t session peer limit =
        min limit (unread t session peer)) ∧
      (∀ session, (t.readCount.get session).getD 0 ≤ lastSequence t ∧
        ∀ p, (t.readCountByPeer.get (session, p)).getD 0 ≤
          (t.incomingCountByPeer.get p).getD 0) ∧
      ∀ session sequences, Ensures (dmMarkRead t session sequences)
        (fun r => (∀ x, x ∈ r.1.read ↔
            x ∈ t.read ∨ (x.1 = session ∧ x.2 ∈ sequences.take DM_MARK_READ_MAX)) ∧
          r.2 = ((sequences.take DM_MARK_READ_MAX).toFinset.filter
            fun x => (session, x) ∉ t.read).card ∧
          dmMarkRead r.1 session sequences = .ok (r.1, 0))
        (fun _ => run dmStep t [.markRead session sequences] = t) := by
  intro t
  have h : UnreadExact me t := dmReached_exact me ops
  obtain ⟨⟨n, ha⟩, hm⟩ := h
  refine ⟨fun k => ?_, fun body eventId timestamp hnew => dmStoreHistoryTx_kept hnew eventId timestamp,
    ⟨n, fun s => ?_⟩, ha.paired, ha.byPeer, ha.counts, fun session s hs => ?_,
    fun session => ⟨hm.total session, hm.byPeer session⟩, fun session peer limit => ?_,
    fun session => ?_, fun session sequences => ?_⟩
  · rw [← Option.isSome_iff_exists, ha.sequenced]
    exact exists_congr fun e => ⟨fun ⟨he, hr⟩ => ⟨he, ha.senders k e he, hr⟩, fun ⟨he, _, hr⟩ => ⟨he, hr⟩⟩
  · rw [← ha.keys s, Option.isSome_iff_exists]
  · exact Option.isSome_iff_exists.mp (hm.arrived session s hs)
  · exact UnreadExact.count ⟨⟨n, ha⟩, hm⟩ session peer limit
  · exact UnreadExact.covered ⟨⟨n, ha⟩, hm⟩ session
  · refine ensures_iff.mpr ⟨fun r hr => ?_, fun e he => ?_⟩
    · have hmark := (dmMarkRead_marking ha hm session sequences).of_ok hr
      refine ⟨hmark.read, hmark.number, dmMarkRead_again fun x hx => ?_⟩
      exact (hmark.read (session, x)).mpr (.inr ⟨rfl, hx⟩)
    · rw [run_cons, run_nil, dmStep, he]
      rfl

end Rostra.Dm
