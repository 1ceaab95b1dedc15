/-
# One live owner of storage

Whatever is still in use of an identity can be found by its next load: the registry of tasks that have not
terminated, and the database that is still open, belong to the client in `inner` or to the entry in
`retired` (`Tracked`).  As both are maps, there is one of each at most.

* Section 1: who is referenced by whom.
* Section 2: the invariant.  `Linked` says that references lead somewhere and that a client without
  references cannot come back, `Tracked` that nothing in use is lost, `Placed` what the holder of the lock
  knows, and `Ordered` that the usage queue follows the last uses.
* Section 3: steps outside of the manager.
* Section 4: the steps of the holder of the lock.
* Section 5: a client that was given to somebody is found as long as it lives.
* Section 6: what every label of a run promises, and the main result.

The owner of a database is whoever can reach it by strong references, so a second opening of one file is not a
matter of a lock on that file but of what a load is able to find. The manager keeps two maps for that: `inner` has
the clients that are loaded, and `retired` what is left of those that were evicted, by weak references. Everything
that can happen outside, and all of it does between two statements of a load, changes who is alive; nothing of it
adds to the two maps.

A load is a sequence of statements under one lock, so it is modelled by the place that it has reached (`LoadPc`); a
caller that goes away does not stop it. Each place has its own knowledge (`Placed`), which the steps outside must
not destroy: that is what most of section 3 is about.
-/
import Rostra.Client.MultiClient

namespace Rostra.Client

open Rostra

/-! ## 1. References

A client is alive if somebody outside has it, if `inner` has it, or if the load that constructed it still does; a
database is open as long as somebody, or a client that is alive, refers to it. -/

namespace MultiWorld

theorem alive_iff {w : MultiWorld} {c : ClientRef} : w.alive c = true ↔
    c ∈ w.clientHandles ∨ (∃ id, w.inner.get id = some c) ∨ w.pc.holdsClient c = true := by
  have hinner : (∃ id ∈ w.inner.keys, w.inner.get id = some c) ↔ ∃ id, w.inner.get id = some c :=
    ⟨fun ⟨id, _, h⟩ => ⟨id, h⟩, fun ⟨id, h⟩ => ⟨id, Table.mem_keys_of_get h, h⟩⟩
  simp only [alive, hinner, decide_eq_true_eq]

theorem owned_iff {w : MultiWorld} {d : DatabaseRef} : w.owned d = true ↔
    d ∈ w.databaseHandles ∨
    (∃ c k, w.clients.get c = some k ∧ c ∉ w.released ∧ k.database = d) ∨
    (∃ id e, w.retired.get id = some e ∧ e.database = d) ∨ w.pc.holdsDatabase d = true := by
  have hclients : (∃ c ∈ w.clients.keys, c ∉ w.released ∧
      (w.clients.get c).any (·.database = d) = true) ↔
      ∃ c k, w.clients.get c = some k ∧ c ∉ w.released ∧ k.database = d := by
    constructor
    · rintro ⟨c, hc, hreleased, hany⟩
      obtain ⟨k, hk⟩ := Table.mem_keys.mp hc
      rw [hk] at hany
      exact ⟨c, k, hk, hreleased, by simpa using hany⟩
    · rintro ⟨c, k, hk, hreleased, hd⟩
      exact ⟨c, Table.mem_keys_of_get hk, hreleased, by simp [hk, hd]⟩
  have hretired : (∃ id ∈ w.retired.keys, (w.retired.get id).any (·.database = d) = true) ↔
      ∃ id e, w.retired.get id = some e ∧ e.database = d := by
    constructor
    · rintro ⟨id, hid, hany⟩
      obtain ⟨e, he⟩ := Table.mem_keys.mp hid
      rw [he] at hany
      exact ⟨id, e, he, by simpa using hany⟩
    · rintro ⟨id, e, he, hd⟩
      exact ⟨id, Table.mem_keys_of_get he, by simp [he, hd]⟩
  simp only [owned, hclients, hretired, decide_eq_true_eq]

/-! ## 2. The invariant

The four parts are separate because different steps threaten them. Steps outside of the manager only take
references away and make copies of those that are there: `Linked` and `Tracked` have to survive that. The steps of
a load move what is theirs from one map to the other, and `Placed` says what they may rely on when they do. -/

/-- **References lead somewhere**, and a client without references stays so. Names of databases, clients and
registries are given out once, so what the record of a client refers to is what it was built with. -/
structure Linked (w : MultiWorld) : Prop where
  fresh : ∀ n, w.next ≤ n →
    w.databases.get n = none ∧ w.clients.get n = none ∧ w.tasks.get n = none
  registered : ∀ c k, w.clients.get c = some k → ∃ tasks, w.tasks.get k.tasks = some tasks ∧
    tasks.id = k.id ∧ (tasks.running = false → c ∈ w.released)
  dead : ∀ c ∈ w.released, w.alive c = false
  gone : ∀ c ∈ w.released, ∃ k, w.clients.get c = some k
  built : ∀ c, w.alive c = true → ∃ k, w.clients.get c = some k
  stored : ∀ c k, w.clients.get c = some k → c ∉ w.released →
    w.databases.get k.database = some k.id
  named : ∀ c k, w.clients.get c = some k → k.database < w.next
  handled : ∀ d ∈ w.databaseHandles, ∃ id, w.databases.get d = some id
  separate : ∀ c c' k k', w.clients.get c = some k → w.clients.get c' = some k' →
    k.tasks = k'.tasks → c = c'
  loaded : ∀ id c, w.inner.get id = some c → ∃ k, w.clients.get c = some k ∧ k.id = id
  kept : ∀ id e, w.retired.get id = some e → w.databases.get e.database = some id ∧
    ∃ t tasks, e.tasks = some t ∧ w.tasks.get t = some tasks ∧ tasks.id = id ∧
      ∀ c, e.client = some c → w.clients.get c = some ⟨id, e.database, t⟩

end MultiWorld

/-- The holder of the lock is about to register a database, or to close it. -/
def LoadPc.Keeps (id : RostraId) (d : DatabaseRef) : LoadPc → Prop
  | .attaching id' d' | .prepared id' d' => id' = id ∧ d' = d
  | .discarding d' | .closing _ _ _ d' => d' = d
  | _ => False

namespace MultiWorld

/-- **What is in use can be found**: a registry whose tasks have not all ended belongs to a client in `inner` or to
an entry of `retired`, and so does a database that is open, unless the holder of the lock keeps it. A cold load
relies on this when it opens a file. -/
structure Tracked (w : MultiWorld) : Prop where
  tasks : ∀ t tasks, w.tasks.get t = some tasks → tasks.terminated = false →
    (∃ c k, w.inner.get tasks.id = some c ∧ w.clients.get c = some k ∧ k.tasks = t) ∨
    ∃ e, w.retired.get tasks.id = some e ∧ e.tasks = some t
  databases : ∀ d id, w.databases.get d = some id →
    (∃ c k, w.inner.get id = some c ∧ w.clients.get c = some k ∧ k.database = d) ∨
    (∃ e, w.retired.get id = some e ∧ e.database = d) ∨ w.pc.Keeps id d
  once : ∀ id c e, w.inner.get id = some c → w.retired.get id = some e → w.pc = .unretiring id c

/-- An entry that a client of the identity belongs to. -/
def Entered (w : MultiWorld) (id : RostraId) (c : ClientRef) : Prop :=
  ∃ k e, w.clients.get c = some k ∧ k.id = id ∧ w.retired.get id = some e ∧
    e.tasks = some k.tasks ∧ e.database = k.database

/-- What the holder of the lock knows. -/
def Placed (maxClients : ℕ) (w : MultiWorld) : Prop :=
  match w.pc with
  | .idle | .lookup _ => True
  | .reaping reaper _ _ | .budget reaper _ _ => ∀ id, reaper = .load id → w.inner.get id = none
  | .closing reaper _ _ d => w.owned d = false ∧ ∀ id, reaper = .load id → w.inner.get id = none
  | .opening id => w.inner.get id = none ∧ w.retired.get id = none
  | .attaching id d =>
    w.inner.get id = none ∧ w.retired.get id = none ∧ w.databases.get d = some id ∧
      d ∉ w.databaseHandles ∧ ∀ c k, w.clients.get c = some k → k.database ≠ d
  | .discarding d => w.owned d = false
  | .awaiting id d t =>
    w.inner.get id = none ∧ ∃ e, w.retired.get id = some e ∧ e.database = d ∧ e.tasks = some t
  | .prepared id d => w.inner.get id = none ∧ w.databases.get d = some id ∧
    ∀ e, w.retired.get id = some e → e.database = d ∧ ∀ t, e.tasks = some t → w.isTerminated t = true
  | .constructing id d t => w.inner.get id = none ∧ w.retired.get id = some ⟨none, d, some t⟩ ∧
    (∃ tasks, w.tasks.get t = some tasks ∧ tasks.running = true) ∧
    ∀ c k, w.clients.get c = some k → k.tasks ≠ t
  | .starting id c | .evicting id c => w.inner.get id = none ∧ w.Entered id c
  | .inserting id c =>
    w.inner.get id = none ∧ w.Entered id c ∧ w.inner.keys.card < maxClients
  | .unretiring id c => w.inner.get id = some c ∧ w.Entered id c
  | .queueing id c => w.inner.get id = some c

end MultiWorld

/-- The uses of identities, in order. -/
def uses (trace : List MultiLabel) : List RostraId :=
  trace.filterMap fun
    | .used id => some id
    | _ => none

namespace MultiWorld

/-- **The usage queue follows the last uses** of the loaded identities; the one that is being published
may be missing. -/
structure Ordered (maxClients : ℕ) (w : MultiWorld) (trace : List MultiLabel) : Prop where
  room : w.inner.keys.card ≤ maxClients
  queue : w.usageQueue = (Lru.order (uses trace)).filter (· ∈ w.inner.keys) ∨
    ∃ id, w.pc.publishing = some id ∧ w.usageQueue =
      ((Lru.order (uses trace)).filter (· ∈ w.inner.keys)).filter (· ≠ id)
  listed : ∀ id ∈ w.inner.keys, id ∈ Lru.order (uses trace) ∨ w.pc.publishing = some id

structure Sound (maxClients : ℕ) (w : MultiWorld) (trace : List MultiLabel) : Prop where
  linked : w.Linked
  tracked : w.Tracked
  placed : w.Placed maxClients
  ordered : w.Ordered maxClients trace

/-! ## 3. Outside of the manager

A clone copies a reference, a drop removes one, and the last drop of a client runs its destructor in two steps: the
database is released first, and the tasks are aborted after that. In between the client is dead, its database may
be open, and its tasks may run; the entry of `retired` still leads to both. -/

section Outside

variable {maxClients : ℕ} {w w' : MultiWorld} {trace : List MultiLabel}

/-- Only strong references, the usage queue, the cursor, or the place of the holder of the lock differ. -/
structure SameCore (w w' : MultiWorld) : Prop where
  next : w'.next = w.next
  databases : w'.databases = w.databases
  clients : w'.clients = w.clients
  tasks : w'.tasks = w.tasks
  released : w'.released = w.released
  inner : w'.inner = w.inner
  retired : w'.retired = w.retired

/-- References to databases that came from others. -/
def HandlesFrom (w w' : MultiWorld) : Prop :=
  ∀ d ∈ w'.databaseHandles, d ∈ w.databaseHandles ∨
    ∃ c k, w.clients.get c = some k ∧ c ∉ w.released ∧ k.database = d

theorem Linked.frame (h : w.Linked) (hcore : SameCore w w')
    (halive : ∀ c, w'.alive c = true → w.alive c = true) (hhandles : HandlesFrom w w') :
    w'.Linked := by
  refine ⟨?_, ?_, fun c hc => ?_, ?_, fun c hc => ?_, ?_, ?_, fun d hd => ?_, ?_, ?_, ?_⟩
  · rw [hcore.next, hcore.databases, hcore.clients, hcore.tasks]
    exact h.fresh
  · rw [hcore.clients, hcore.tasks, hcore.released]
    exact h.registered
  · rw [hcore.released] at hc
    by_contra hlive
    have hold := halive c (Bool.not_eq_false _ ▸ hlive)
    rw [h.dead c hc] at hold
    cases hold
  · rw [hcore.released, hcore.clients]
    exact h.gone
  · rw [hcore.clients]
    exact h.built c (halive c hc)
  · rw [hcore.clients, hcore.released, hcore.databases]
    exact h.stored
  · rw [hcore.clients, hcore.next]
    exact h.named
  · rw [hcore.databases]
    rcases hhandles d hd with hd | ⟨c, k, hk, hreleased, rfl⟩
    · exact h.handled d hd
    · exact ⟨k.id, h.stored c k hk hreleased⟩
  · rw [hcore.clients]
    exact h.separate
  · rw [hcore.inner, hcore.clients]
    exact h.loaded
  · rw [hcore.retired, hcore.databases, hcore.tasks, hcore.clients]
    exact h.kept

theorem Tracked.frame (h : w.Tracked) (hcore : SameCore w w') (hpc : w'.pc = w.pc) : w'.Tracked := by
  refine ⟨?_, ?_, ?_⟩
  · rw [hcore.tasks, hcore.inner, hcore.clients, hcore.retired]
    exact h.tasks
  · rw [hcore.databases, hcore.inner, hcore.clients, hcore.retired, hpc]
    exact h.databases
  · rw [hcore.inner, hcore.retired, hpc]
    exact h.once

/-- A new reference to a database comes from another one. -/
theorem owned_frame (hcore : SameCore w w') (hpc : w'.pc = w.pc)
    (hhandles : HandlesFrom w w') {d : DatabaseRef} (h : w.owned d = false) : w'.owned d = false := by
  rw [← Bool.not_eq_true, owned_iff] at h ⊢
  rw [hcore.clients, hcore.released, hcore.retired, hpc]
  rintro (hd | hrest)
  · rcases hhandles d hd with hd | hd
    · exact h (.inl hd)
    · exact h (.inr (.inl hd))
  · exact h (.inr hrest)

theorem Placed.frame (h : w.Placed maxClients) (hcore : SameCore w w') (hpc : w'.pc = w.pc)
    (hhandles : HandlesFrom w w') : w'.Placed maxClients := by
  unfold Placed at h ⊢
  unfold Entered isTerminated at *
  rw [hpc, hcore.inner, hcore.retired, hcore.clients, hcore.tasks, hcore.databases]
  cases hw : w.pc with
  | closing reaper key keys d =>
    rw [hw] at h
    exact ⟨owned_frame hcore hpc hhandles h.1, h.2⟩
  | discarding d =>
    rw [hw] at h
    exact owned_frame hcore hpc hhandles h
  | attaching id d =>
    rw [hw] at h
    refine ⟨h.1, h.2.1, h.2.2.1, fun hd => ?_, h.2.2.2.2⟩
    rcases hhandles d hd with hd | ⟨c, k, hk, -, hd⟩
    · exact h.2.2.2.1 hd
    · exact h.2.2.2.2 c k hk hd
  | _ =>
    rw [hw] at h
    exact h

/-- A step that changes references outside of the manager only. -/
theorem Sound.outside (h : w.Sound maxClients trace) (hcore : SameCore w w') (hpc : w'.pc = w.pc)
    (hqueue : w'.usageQueue = w.usageQueue) (halive : ∀ c, w'.alive c = true → w.alive c = true)
    (hhandles : HandlesFrom w w') : w'.Sound maxClients trace := by
  refine ⟨h.linked.frame hcore halive hhandles, h.tracked.frame hcore hpc, h.placed.frame hcore hpc hhandles,
    ?_, ?_, ?_⟩
  · rw [hcore.inner]
    exact h.ordered.room
  · rw [hqueue, hcore.inner, hpc]
    exact h.ordered.queue
  · rw [hcore.inner, hpc]
    exact h.ordered.listed

/-- Another reference to a client that is alive. -/
theorem alive_cons {c : ClientRef} (hc : w.alive c = true) {handles : Multiset ClientRef}
    (hhandles : w'.clientHandles = handles) (hsub : ∀ c' ∈ handles, c' = c ∨ c' ∈ w.clientHandles)
    (hinner : w'.inner = w.inner) (hpc : ∀ c', w'.pc.holdsClient c' = true → w.alive c' = true)
    (c' : ClientRef) (h : w'.alive c' = true) : w.alive c' = true := by
  rw [alive_iff, hhandles, hinner] at h
  rcases h with h | h | h
  · rcases hsub c' h with rfl | h
    · exact hc
    · exact alive_iff.mpr (.inl h)
  · exact alive_iff.mpr (.inr (.inl h))
  · exact hpc c' h

theorem holdsClient_alive {c : ClientRef} (h : w.pc.holdsClient c = true) : w.alive c = true :=
  alive_iff.mpr (.inr (.inr h))

theorem Sound.cloneClient {c : ClientRef} (h : w.Sound maxClients trace) (hc : w.alive c = true) :
    ({ w with clientHandles := c ::ₘ w.clientHandles } : MultiWorld).Sound maxClients trace :=
  h.outside ⟨rfl, rfl, rfl, rfl, rfl, rfl, rfl⟩ rfl rfl
    (alive_cons hc rfl (fun _ h => Multiset.mem_cons.mp h) rfl
      fun _ h => holdsClient_alive (w := w) h) fun _ hd => .inl hd

theorem Sound.dropClient (h : w.Sound maxClients trace) (c : ClientRef) :
    ({ w with clientHandles := w.clientHandles.erase c } : MultiWorld).Sound maxClients trace := by
  refine h.outside ⟨rfl, rfl, rfl, rfl, rfl, rfl, rfl⟩ rfl rfl (fun c' hc' => ?_)
    fun _ hd => .inl hd
  rw [alive_iff] at hc' ⊢
  exact hc'.imp_left fun hc' => Multiset.mem_of_mem_erase hc'

theorem Sound.cloneDatabase {d : DatabaseRef} (h : w.Sound maxClients trace)
    (hd : d ∈ w.databaseHandles ∨ ∃ c ∈ w.clients.keys, w.alive c = true ∧
      (w.clients.get c).any (·.database = d) = true) :
    ({ w with databaseHandles := d ::ₘ w.databaseHandles } : MultiWorld).Sound maxClients trace := by
  refine h.outside ⟨rfl, rfl, rfl, rfl, rfl, rfl, rfl⟩ rfl rfl (fun c hc => ?_) fun d' hd' => ?_
  · rw [alive_iff] at hc ⊢
    exact hc
  · rcases Multiset.mem_cons.mp hd' with rfl | hd'
    · rcases hd with hd | ⟨c, hkey, hlive, hany⟩
      · exact .inl hd
      · obtain ⟨k, hk⟩ := Table.mem_keys.mp hkey
        rw [hk] at hany
        refine .inr ⟨c, k, hk, fun hreleased => ?_, by simpa using hany⟩
        rw [h.linked.dead c hreleased] at hlive
        cases hlive
    · exact .inl hd'

theorem Sound.dropDatabase (h : w.Sound maxClients trace) (d : DatabaseRef) :
    ({ w with databaseHandles := w.databaseHandles.erase d } : MultiWorld).Sound maxClients trace := by
  refine h.outside ⟨rfl, rfl, rfl, rfl, rfl, rfl, rfl⟩ rfl rfl (fun c hc => ?_)
    fun d' hd' => .inl (Multiset.mem_of_mem_erase hd')
  rw [alive_iff] at hc ⊢
  exact hc

/-- A registry that changes is still that of its identity, and what has terminated stays so. -/
theorem tasks_kept {t : TasksRef} {old new : ClientTasks} (hold : w.tasks.get t = some old) (hid : new.id = old.id)
    (hterminated : old.terminated = true → new.terminated = true) {t' : TasksRef} {tasks : ClientTasks}
    (ht : w.tasks.get t' = some tasks) : ∃ tasks', (w.tasks.insert t new).get t' = some tasks' ∧
      tasks'.id = tasks.id ∧ (tasks.terminated = true → tasks'.terminated = true) := by
  rw [Table.get_insert]
  split
  · next heq =>
    rw [heq, hold] at ht
    cases ht
    exact ⟨new, rfl, hid, hterminated⟩
  · exact ⟨tasks, ht, rfl, id⟩

theorem Linked.retask {t : TasksRef} {old new : ClientTasks} (hl : w.Linked) (hold : w.tasks.get t = some old)
    (hid : new.id = old.id) (hterminated : old.terminated = true → new.terminated = true)
    (hrunning : old.running = true → new.running = true ∨
      ∀ c k, w.clients.get c = some k → k.tasks = t → c ∈ w.released) :
    ({ w with tasks := w.tasks.insert t new } : MultiWorld).Linked := by
  refine ⟨fun n hn => ?_, fun c k hk => ?_, hl.dead, hl.gone, hl.built, hl.stored, hl.named,
    hl.handled, hl.separate, hl.loaded, fun id e he => ?_⟩
  · obtain ⟨hd, hc, ht⟩ := hl.fresh n hn
    refine ⟨hd, hc, ?_⟩
    rw [Table.get_insert, if_neg, ht]
    rintro rfl
    rw [hold] at ht
    cases ht
  · obtain ⟨tasks, htasks, htid, hreleased⟩ := hl.registered c k hk
    obtain ⟨tasks', htasks', htid', -⟩ := tasks_kept hold hid hterminated htasks
    refine ⟨tasks', htasks', htid'.trans htid, fun hstopped => ?_⟩
    rw [Table.get_insert] at htasks'
    split at htasks'
    · next heq =>
      cases htasks'
      rw [heq, hold] at htasks
      cases htasks
      cases hrun : old.running with
      | false => exact hreleased hrun
      | true =>
        rcases hrunning hrun with hrun' | hall
        · rw [hstopped] at hrun'
          cases hrun'
        · exact hall c k hk heq
    · rw [htasks] at htasks'
      cases htasks'
      exact hreleased hstopped
  · obtain ⟨hd, t', tasks, ht', htasks, htid, hclient⟩ := hl.kept id e he
    obtain ⟨tasks', htasks', htid', -⟩ := tasks_kept hold hid hterminated htasks
    exact ⟨hd, t', tasks', ht', htasks', htid'.trans htid, hclient⟩

theorem Placed.retask {t : TasksRef} {old new : ClientTasks} (hplaced : w.Placed maxClients)
    (hold : w.tasks.get t = some old) (hid : new.id = old.id)
    (hterminated : old.terminated = true → new.terminated = true)
    (hrunning : old.running = true → new.running = true ∨ ∀ id d, w.pc ≠ .constructing id d t) :
    ({ w with tasks := w.tasks.insert t new } : MultiWorld).Placed maxClients := by
  unfold Placed at hplaced ⊢
  cases hpc : w.pc with
  | prepared id d =>
    rw [hpc] at hplaced
    refine ⟨hplaced.1, hplaced.2.1, fun e he => ⟨(hplaced.2.2 e he).1, fun t' ht' => ?_⟩⟩
    have hdone := (hplaced.2.2 e he).2 t' ht'
    unfold isTerminated at hdone ⊢
    cases htasks : w.tasks.get t' with
    | none =>
      rw [htasks] at hdone
      cases hdone
    | some tasks =>
      rw [htasks] at hdone
      obtain ⟨tasks', htasks', -, hterm⟩ := tasks_kept hold hid hterminated htasks
      have hnow : ({ w with tasks := w.tasks.insert t new } : MultiWorld).tasks.get t' =
        some tasks' := htasks'
      rw [hnow]
      exact hterm hdone
  | constructing id d t' =>
    rw [hpc] at hplaced
    obtain ⟨hinner, hretired, ⟨tasks, htasks, hrun⟩, hno⟩ := hplaced
    refine ⟨hinner, hretired, ?_, hno⟩
    by_cases heq : t' = t
    · rw [heq, hold] at htasks
      cases htasks
      rcases hrunning hrun with hrun | hplace
      · exact ⟨new, by rw [heq]; exact Table.get_insert_self _ _ _, hrun⟩
      · exact absurd (heq ▸ hpc) (hplace id d)
    · exact ⟨tasks, by rw [← htasks]; exact Table.get_insert_of_ne _ _ heq, hrun⟩
  | closing reaper key keys d =>
    simp only [hpc, owned] at hplaced ⊢
    exact hplaced
  | discarding d =>
    simp only [hpc, owned] at hplaced ⊢
    exact hplaced
  | _ =>
    rw [hpc] at hplaced
    exact hplaced

/-- A registry changes: a task is started or ends, or the owner requests the end of all. -/
theorem Sound.retask {t : TasksRef} {old new : ClientTasks} (h : w.Sound maxClients trace)
    (hold : w.tasks.get t = some old) (hid : new.id = old.id)
    (hterminated : old.terminated = true → new.terminated = true)
    (hrunning : old.running = true → new.running = true ∨
      (∀ c k, w.clients.get c = some k → k.tasks = t → c ∈ w.released) ∧
        ∀ id d, w.pc ≠ .constructing id d t) :
    ({ w with tasks := w.tasks.insert t new } : MultiWorld).Sound maxClients trace := by
  refine ⟨h.linked.retask hold hid hterminated fun hrun => (hrunning hrun).imp_right And.left,
    ⟨fun t' tasks ht' hopen => ?_, h.tracked.databases, h.tracked.once⟩,
    Placed.retask h.placed hold hid hterminated fun hrun => (hrunning hrun).imp_right And.right,
    h.ordered.room, h.ordered.queue, h.ordered.listed⟩
  have hget : (w.tasks.insert t new).get t' = some tasks := ht'
  rw [Table.get_insert] at hget
  split at hget
  · next heq =>
    cases hget
    rw [hid]
    refine h.tracked.tasks t' old (heq ▸ hold) ?_
    cases hterm : old.terminated with
    | false => rfl
    | true =>
      rw [hterminated hterm] at hopen
      cases hopen
  · exact h.tracked.tasks t' tasks hget hopen

/-- A task is started: the client is alive, so its registry is running. -/
theorem Sound.spawn {c : ClientRef} {k : ClientRecord} {tasks : ClientTasks}
    (h : w.Sound maxClients trace) (hc : w.alive c = true) (hk : w.clients.get c = some k)
    (htasks : w.tasks.get k.tasks = some tasks) :
    ({ w with tasks := w.tasks.insert k.tasks tasks.push } : MultiWorld).Sound maxClients trace := by
  have hrun : tasks.running = true := by
    obtain ⟨tasks', htasks', -, hreleased⟩ := h.linked.registered c k hk
    rw [htasks] at htasks'
    cases htasks'
    by_contra hstopped
    rw [h.linked.dead c (hreleased (Bool.not_eq_true _ ▸ hstopped))] at hc
    cases hc
  refine h.retask htasks ?_ (fun hdone => ?_) fun _ => .inl ?_
  · simp [ClientTasks.push, hrun]
  · simp [ClientTasks.terminated, hrun] at hdone
  · simp [ClientTasks.push, hrun]

theorem Sound.finish {t : TasksRef} {tasks : ClientTasks} (h : w.Sound maxClients trace)
    (htasks : w.tasks.get t = some tasks) :
    ({ w with tasks := w.tasks.insert t { tasks with unfinished := tasks.unfinished - 1 } } :
      MultiWorld).Sound maxClients trace := by
  refine h.retask htasks rfl (fun hdone => ?_) fun hrun => .inl hrun
  simp only [ClientTasks.terminated, Bool.and_eq_true, beq_iff_eq] at hdone ⊢
  exact ⟨hdone.1, by rw [hdone.2]⟩

/-- The second step of the destructor. -/
theorem Sound.abortTasks {c : ClientRef} {k : ClientRecord} {tasks : ClientTasks}
    (h : w.Sound maxClients trace) (hc : c ∈ w.released) (hk : w.clients.get c = some k)
    (htasks : w.tasks.get k.tasks = some tasks) :
    ({ w with tasks := w.tasks.insert k.tasks tasks.abort } : MultiWorld).Sound maxClients trace := by
  refine h.retask htasks rfl (fun hdone => ?_) fun _ => .inr ⟨fun c' k' hk' heq => ?_, fun id d hpc => ?_⟩
  · simp only [ClientTasks.terminated, ClientTasks.abort, Bool.and_eq_true, beq_iff_eq] at hdone ⊢
    exact ⟨rfl, hdone.2⟩
  · rwa [h.linked.separate c' c k' k hk' hk heq]
  · have hplaced := h.placed
    unfold Placed at hplaced
    rw [hpc] at hplaced
    exact hplaced.2.2.2 c k hk rfl

/-- What the holder of the lock knows of owners is that there are none. -/
theorem Placed.shrink (h : w.Placed maxClients) (hpc : w'.pc = w.pc) (hinner : w'.inner = w.inner)
    (hretired : w'.retired = w.retired) (hclients : w'.clients = w.clients)
    (htasks : w'.tasks = w.tasks) (hhandles : w'.databaseHandles = w.databaseHandles)
    (hdatabases : ∀ d id, w.databases.get d = some id → w.owned d = true →
      w'.databases.get d = some id)
    (howned : ∀ d, w.owned d = false → w'.owned d = false) : w'.Placed maxClients := by
  have hheld : ∀ d, w.pc.holdsDatabase d = true → w.owned d = true :=
    fun d hd => owned_iff.mpr (.inr (.inr (.inr hd)))
  unfold Placed at h ⊢
  unfold Entered isTerminated at *
  rw [hpc, hinner, hretired, hclients, htasks, hhandles]
  cases hw : w.pc with
  | closing reaper key keys d =>
    rw [hw] at h
    exact ⟨howned d h.1, h.2⟩
  | discarding d =>
    rw [hw] at h
    exact howned d h
  | attaching id d =>
    rw [hw] at h
    refine ⟨h.1, h.2.1, hdatabases d id h.2.2.1 (hheld d ?_), h.2.2.2⟩
    simp [hw, LoadPc.holdsDatabase]
  | prepared id d =>
    rw [hw] at h
    refine ⟨h.1, hdatabases d id h.2.1 (hheld d ?_), h.2.2⟩
    simp [hw, LoadPc.holdsDatabase]
  | _ =>
    rw [hw] at h
    exact h

/-- The first step of the destructor. -/
theorem Sound.releaseDatabase {c : ClientRef} (h : w.Sound maxClients trace)
    (hbuilt : (w.clients.get c).isSome = true) (hc : w.alive c = false) :
    ({ w with released := insert c w.released } : MultiWorld).Sound maxClients trace := by
  have hl := h.linked
  have hlinked : ({ w with released := insert c w.released } : MultiWorld).Linked := by
    refine ⟨hl.fresh, fun c' k hk => ?_, fun c' hc' => ?_, fun c' hc' => ?_, hl.built,
      fun c' k hk hc' => ?_, hl.named, hl.handled, hl.separate, hl.loaded, hl.kept⟩
    · obtain ⟨tasks, htasks, hid, hreleased⟩ := hl.registered c' k hk
      exact ⟨tasks, htasks, hid, fun hrun => Finset.mem_insert_of_mem (hreleased hrun)⟩
    · rcases Finset.mem_insert.mp hc' with rfl | hc'
      · exact hc
      · exact hl.dead c' hc'
    · rcases Finset.mem_insert.mp hc' with rfl | hc'
      · exact Option.isSome_iff_exists.mp hbuilt
      · exact hl.gone c' hc'
    · exact hl.stored c' k hk fun hin => hc' (Finset.mem_insert_of_mem hin)
  refine ⟨hlinked, ⟨h.tracked.tasks, h.tracked.databases, h.tracked.once⟩, ?_, h.ordered.room,
    h.ordered.queue, h.ordered.listed⟩
  refine h.placed.shrink rfl rfl rfl rfl rfl rfl (fun _ _ hd _ => hd) fun d hd => ?_
  rw [← Bool.not_eq_true, owned_iff] at hd ⊢
  rintro (hin | ⟨c', k, hk, hc', hdb⟩ | hrest)
  · exact hd (.inl hin)
  · exact hd (.inr (.inl ⟨c', k, hk, fun hin => hc' (Finset.mem_insert_of_mem hin), hdb⟩))
  · exact hd (.inr (.inr hrest))

/-- A database that nobody owns is closed. -/
theorem Sound.close {d : DatabaseRef} (h : w.Sound maxClients trace) (hd : w.owned d = false) :
    ({ w with databases := w.databases.remove d } : MultiWorld).Sound maxClients trace := by
  have hl := h.linked
  have hkeep : ∀ d' id, w.databases.get d' = some id → w.owned d' = true →
      (w.databases.remove d).get d' = some id := by
    intro d' id hget howned
    rw [Table.get_remove, if_neg, hget]
    rintro rfl
    rw [hd] at howned
    cases howned
  have hlinked : ({ w with databases := w.databases.remove d } : MultiWorld).Linked := by
    refine ⟨fun n hn => ?_, hl.registered, hl.dead, hl.gone, hl.built, fun c k hk hc => ?_, hl.named,
      fun d' hd' => ?_, hl.separate, hl.loaded, fun id e he => ?_⟩
    · obtain ⟨hdb, hrest⟩ := hl.fresh n hn
      refine ⟨?_, hrest⟩
      show (w.databases.remove d).get n = none
      rw [Table.get_remove, hdb]
      split
      · rfl
      · rfl
    · exact hkeep _ _ (hl.stored c k hk hc) (owned_iff.mpr (.inr (.inl ⟨c, k, hk, hc, rfl⟩)))
    · obtain ⟨id, hid⟩ := hl.handled d' hd'
      exact ⟨id, hkeep _ _ hid (owned_iff.mpr (.inl hd'))⟩
    · obtain ⟨hdb, hrest⟩ := hl.kept id e he
      exact ⟨hkeep _ _ hdb (owned_iff.mpr (.inr (.inr (.inl ⟨id, e, he, rfl⟩)))), hrest⟩
  refine ⟨hlinked, ⟨h.tracked.tasks, fun d' id hd' => ?_, h.tracked.once⟩, ?_, h.ordered.room,
    h.ordered.queue, h.ordered.listed⟩
  · have hold : (w.databases.remove d).get d' = some id := hd'
    rw [Table.get_remove] at hold
    split at hold
    · cases hold
    · exact h.tracked.databases d' id hold
  · exact h.placed.shrink rfl rfl rfl rfl rfl rfl hkeep fun _ h => h

theorem uses_append (trace shown : List MultiLabel) : uses (trace ++ shown) = uses trace ++ uses shown :=
  List.filterMap_append

/-- An identity that is loaded is used. -/
theorem Ordered.touch {id : RostraId} {shown : List MultiLabel} (h : w.Ordered maxClients trace)
    (hid : id ∈ w.inner.keys) (hinner : w'.inner = w.inner)
    (hqueue : w'.usageQueue = Lru.touch w.usageQueue id) (hshown : uses shown = [id])
    (hpc : w'.pc.publishing = w.pc.publishing ∨
      w'.pc.publishing = none ∧ ∀ id', w.pc.publishing = some id' → id' = id) :
    w'.Ordered maxClients (trace ++ shown) := by
  have horder : Lru.order (uses (trace ++ shown)) = Lru.touch (Lru.order (uses trace)) id := by
    rw [uses_append, hshown, Lru.order_snoc]
  have hnodup := Lru.nodup_order (uses trace)
  -- the front of the queue is that of the order
  have hshownFirst : Lru.touch ((Lru.order (uses trace)).filter (· ∈ w.inner.keys)) id =
      (Lru.touch (Lru.order (uses trace)) id).filter (· ∈ w.inner.keys) :=
    (Lru.filter_touch hnodup (by simpa using hid)).symm
  refine ⟨by rw [hinner]; exact h.room, ?_, fun id' hid' => ?_⟩
  · rw [hqueue, hinner, horder]
    rcases h.queue with hq | ⟨id', hpub, hq⟩
    · exact .inl (by rw [hq, hshownFirst])
    · by_cases hsame : id' = id
      · subst hsame
        exact .inl (by rw [hq, Lru.touch_filter_ne (hnodup.filter _), hshownFirst])
      · refine .inr ⟨id', ?_, ?_⟩
        · rcases hpc with hpc | ⟨-, honly⟩
          · rw [hpc, hpub]
          · exact absurd (honly id' hpub) hsame
        · rw [hq, ← hshownFirst]
          exact (Lru.filter_touch (hnodup.filter _) (by simpa using fun h => hsame h.symm)).symm
  · rw [hinner] at hid'
    rw [horder, Lru.mem_touch]
    rcases h.listed id' hid' with hin | hpub
    · exact .inl (.inr hin)
    · rcases hpc with hpc | ⟨-, honly⟩
      · exact .inr (by rw [hpc, hpub])
      · exact .inl (.inl (honly id' hpub))

/-- `loaded_client` of a caller. -/
theorem Sound.touch {id : RostraId} {c : ClientRef} (h : w.Sound maxClients trace)
    (hc : w.inner.get id = some c) :
    ({ w.updateUsageQueue id with clientHandles := c ::ₘ w.clientHandles } :
      MultiWorld).Sound maxClients (trace ++ [.used id, .returned id c]) := by
  have hcore : SameCore w { w.updateUsageQueue id with clientHandles := c ::ₘ w.clientHandles } :=
    ⟨rfl, rfl, rfl, rfl, rfl, rfl, rfl⟩
  have hlive : w.alive c = true := alive_iff.mpr (.inr (.inl ⟨id, hc⟩))
  refine ⟨h.linked.frame hcore ?_ fun _ hd => .inl hd, h.tracked.frame hcore rfl,
    h.placed.frame hcore rfl fun _ hd => .inl hd, ?_⟩
  · exact alive_cons hlive rfl (fun _ h => Multiset.mem_cons.mp h) rfl
      fun _ h => holdsClient_alive (w := w) h
  · exact h.ordered.touch (Table.mem_keys_of_get hc) rfl rfl rfl (.inl rfl)

end Outside

/-! ## 4. The holder of the lock

One lemma for each statement of `load` and of the cleanup, in the order in which a load comes through them: it
reaps what has ended, waits for what has not, opens the file if nobody has it open, and constructs a client. -/

section Holder

variable {maxClients : ℕ} {w w' : MultiWorld} {trace : List MultiLabel}

/-- Outside of a publication the queue is exact. -/
theorem Ordered.quiet (h : w.Ordered maxClients trace) (hpc : w.pc.publishing = none) :
    w.usageQueue = (Lru.order (uses trace)).filter (· ∈ w.inner.keys) ∧
      ∀ id ∈ w.inner.keys, id ∈ Lru.order (uses trace) := by
  refine ⟨?_, fun id hid => ?_⟩
  · rcases h.queue with hq | ⟨id, hpub, -⟩
    · exact hq
    · rw [hpc] at hpub
      cases hpub
  · rcases h.listed id hid with hin | hpub
    · exact hin
    · rw [hpc] at hpub
      cases hpub

theorem Ordered.moved (h : w.Ordered maxClients trace) (hpc : w.pc.publishing = none)
    (hinner : w'.inner = w.inner) (hqueue : w'.usageQueue = w.usageQueue) :
    w'.Ordered maxClients trace := by
  obtain ⟨hq, hlisted⟩ := h.quiet hpc
  refine ⟨?_, .inl ?_, fun id hid => .inl ?_⟩
  · rw [hinner]
    exact h.room
  · rw [hqueue, hinner]
    exact hq
  · rw [hinner] at hid
    exact hlisted id hid

/-- Who is alive does not change when the holder of the lock takes or leaves a client that is. -/
theorem alive_moved {c : ClientRef} (h : w'.alive c = true)
    (hhandles : w'.clientHandles = w.clientHandles) (hinner : w'.inner = w.inner)
    (hpc : ∀ c, w'.pc.holdsClient c = true → w.alive c = true) : w.alive c = true := by
  rw [alive_iff, hhandles, hinner] at h
  rcases h with h | h | h
  · exact alive_iff.mpr (.inl h)
  · exact alive_iff.mpr (.inr (.inl h))
  · exact hpc c h

theorem alive_false {c : ClientRef} (h : w.alive c = false)
    (hmoved : w'.alive c = true → w.alive c = true) : w'.alive c = false := by
  by_contra hlive
  have hold := hmoved (Bool.not_eq_false _ ▸ hlive)
  rw [h] at hold
  cases hold

theorem Tracked.goes (h : w.Tracked) (hcore : SameCore w w')
    (hwindow : ∀ id c, w.pc ≠ .unretiring id c)
    (hkeeps : ∀ id d, w.databases.get d = some id → w.pc.Keeps id d →
      (∃ e, w.retired.get id = some e ∧ e.database = d) ∨ w'.pc.Keeps id d) : w'.Tracked := by
  refine ⟨?_, fun d id hd => ?_, fun id c e hc he => ?_⟩
  · rw [hcore.tasks, hcore.inner, hcore.clients, hcore.retired]
    exact h.tasks
  · rw [hcore.databases] at hd
    rw [hcore.inner, hcore.clients, hcore.retired]
    rcases h.databases d id hd with hin | hin | hin
    · exact .inl hin
    · exact .inr (.inl hin)
    · exact .inr (hkeeps id d hd hin)
  · rw [hcore.inner] at hc
    rw [hcore.retired] at he
    exact absurd (h.once id c e hc he) (hwindow id c)

/-- A step that only goes to another place, not of a publication. -/
theorem Sound.goes (h : w.Sound maxClients trace) (hcore : SameCore w w')
    (hhandles : w'.clientHandles = w.clientHandles) (hqueue : w'.usageQueue = w.usageQueue)
    (hdatabases : w'.databaseHandles = w.databaseHandles) (hpc : w.pc.publishing = none)
    (hclient : ∀ c, w'.pc.holdsClient c = true → w.alive c = true)
    (hkeeps : ∀ id d, w.databases.get d = some id → w.pc.Keeps id d →
      (∃ e, w.retired.get id = some e ∧ e.database = d) ∨ w'.pc.Keeps id d)
    (hplaced : w'.Placed maxClients) : w'.Sound maxClients trace := by
  refine ⟨h.linked.frame hcore (fun _ hlive => alive_moved hlive hhandles hcore.inner hclient)
    fun d hd => .inl (hdatabases ▸ hd), h.tracked.goes hcore (fun id c hwindow => ?_) hkeeps, hplaced,
    h.ordered.moved hpc hcore.inner hqueue⟩
  rw [hwindow] at hpc
  cases hpc

/-- `reap_retired` begins. -/
theorem Sound.reap {reaper : Reaper} (h : w.Sound maxClients trace)
    (hpc : w.pc = .idle ∨ ∃ id, w.pc = .lookup id)
    (hinner : ∀ id, reaper = .load id → w.inner.get id = none) :
    (w.reap reaper).Sound maxClients trace := by
  have hplace : ∃ cursor keys, (w.reap reaper).pc = .reaping reaper cursor keys := by
    unfold MultiWorld.reap
    dsimp only
    split
    · exact ⟨_, _, rfl⟩
    · exact ⟨_, _, rfl⟩
  obtain ⟨cursor, keys, hplace⟩ := hplace
  refine h.goes ⟨rfl, rfl, rfl, rfl, rfl, rfl, rfl⟩ rfl rfl rfl ?_ (fun c hc => ?_) (fun id d _ hk => ?_) ?_
  · rcases hpc with hpc | ⟨id, hpc⟩
    · rw [hpc]
      rfl
    · rw [hpc]
      rfl
  · rw [hplace] at hc
    cases hc
  · rcases hpc with hpc | ⟨id, hpc⟩
    · rw [hpc] at hk
      exact hk.elim
    · rw [hpc] at hk
      exact hk.elim
  · unfold Placed
    rw [hplace]
    exact hinner

/-- One entry of `retired`. -/
theorem Sound.reapOne {reaper : Reaper} {cursor : Option RostraId} {key : RostraId}
    {keys : List RostraId} (h : w.Sound maxClients trace)
    (hpc : w.pc = .reaping reaper cursor (key :: keys)) :
    (w.reapOne reaper cursor key keys).Sound maxClients trace := by
  have hplaced := h.placed
  unfold Placed at hplaced
  rw [hpc] at hplaced
  have hstays : ∀ pc, (∀ c, LoadPc.holdsClient c pc = false) →
      Placed maxClients { w with pc := pc } → ({ w with pc := pc } : MultiWorld).Sound maxClients trace :=
    fun pc hclient hp => h.goes ⟨rfl, rfl, rfl, rfl, rfl, rfl, rfl⟩ rfl rfl rfl (by rw [hpc]; rfl)
      (fun c hc => by rw [hclient c] at hc; cases hc)
      (fun id d _ hk => by rw [hpc] at hk; exact hk.elim) hp
  unfold MultiWorld.reapOne
  split
  · exact hstays _ (fun _ => rfl) hplaced
  next entry hentry =>
  split
  · exact hstays _ (fun _ => rfl) hplaced
  next htasks =>
  dsimp only
  split
  · exact hstays _ (fun _ => rfl) hplaced
  next hsole =>
  -- the entry goes, as nothing of it is in use but the database, which is in our hands
  have hl := h.linked
  obtain ⟨-, t, tasks, ht, htable, -, -⟩ := hl.kept key entry hentry
  have hdone : tasks.terminated = true := by
    rw [ht] at htasks
    simpa [isTerminated, htable] using htasks
  have hget : ∀ id e, (w.retired.remove key).get id = some e → w.retired.get id = some e := by
    intro id e he
    rw [Table.get_remove] at he
    split at he
    · cases he
    · exact he
  have hlost : ∀ id e, w.retired.get id = some e → (w.retired.remove key).get id = some e ∨
      (id = key ∧ e = entry) := by
    intro id e he
    rw [Table.get_remove]
    split
    · next heq =>
      rw [heq, hentry] at he
      exact .inr ⟨heq, (Option.some.inj he).symm⟩
    · exact .inl he
  refine ⟨⟨hl.fresh, hl.registered, fun c hc => ?_, hl.gone, fun c hc => ?_, hl.stored, hl.named,
    hl.handled, hl.separate, hl.loaded, fun id e he => hl.kept id e (hget id e he)⟩,
    ⟨fun t' tasks' ht' hopen => ?_, fun d id hd => ?_, fun id c e hc he => ?_⟩, ?_,
    h.ordered.moved (by rw [hpc]; rfl) rfl rfl⟩
  · have hdead := hl.dead c hc
    rw [← Bool.not_eq_true, alive_iff, hpc] at hdead
    rw [← Bool.not_eq_true, alive_iff]
    exact hdead
  · refine hl.built c ?_
    rw [alive_iff] at hc ⊢
    rw [hpc]
    exact hc
  · rcases h.tracked.tasks t' tasks' ht' hopen with hin | ⟨e, he, het⟩
    · exact .inl hin
    · rcases hlost _ e he with hin | ⟨-, rfl⟩
      · exact .inr ⟨e, hin, het⟩
      · rw [ht] at het
        cases het
        have hsame : w.tasks.get t = some tasks' := ht'
        rw [htable] at hsame
        cases hsame
        rw [hdone] at hopen
        cases hopen
  · rcases h.tracked.databases d id hd with hin | ⟨e, he, hed⟩ | hk
    · exact .inl hin
    · rcases hlost _ e he with hin | ⟨-, rfl⟩
      · exact .inr (.inl ⟨e, hin, hed⟩)
      · exact .inr (.inr hed)
    · rw [hpc] at hk
      exact hk.elim
  · have hwindow := h.tracked.once id c e hc (hget id e he)
    rw [hpc] at hwindow
    cases hwindow
  · refine ⟨?_, hplaced⟩
    rw [Bool.not_eq_true, ← Bool.not_eq_true, owned_iff, hpc] at hsole
    rw [← Bool.not_eq_true, owned_iff]
    exact hsole

/-- The load looks for what is left of its identity. -/
theorem Sound.reaped {reaper : Reaper} {cursor : Option RostraId} (h : w.Sound maxClients trace)
    (hpc : w.pc = .reaping reaper cursor []) : (w.reaped reaper cursor).Sound maxClients trace := by
  have hplaced := h.placed
  unfold Placed at hplaced
  rw [hpc] at hplaced
  have hpub : w.pc.publishing = none := by
    rw [hpc]
    rfl
  have hkeeps : ∀ {w' : MultiWorld} (id d), w.databases.get d = some id → w.pc.Keeps id d →
      (∃ e, w.retired.get id = some e ∧ e.database = d) ∨ w'.pc.Keeps id d := by
    intro w' id d _ hk
    rw [hpc] at hk
    exact hk.elim
  cases reaper with
  | cleanup => exact h.goes ⟨rfl, rfl, rfl, rfl, rfl, rfl, rfl⟩ rfl rfl rfl hpub nofun hkeeps trivial
  | load id =>
    have hinner := hplaced id rfl
    unfold MultiWorld.reaped
    dsimp only
    cases he : w.retired.get id with
    | none =>
      exact h.goes ⟨rfl, rfl, rfl, rfl, rfl, rfl, rfl⟩ rfl rfl rfl hpub nofun hkeeps ⟨hinner, he⟩
    | some entry =>
      obtain ⟨-, t, tasks, ht, -, -, hclient⟩ := h.linked.kept id entry he
      dsimp only
      split
      · next c hc =>
        obtain ⟨hc, hlive⟩ := Option.filter_eq_some_iff.mp hc
        refine h.goes ⟨rfl, rfl, rfl, rfl, rfl, rfl, rfl⟩ rfl rfl rfl hpub (fun c' hc' => ?_) hkeeps
          ⟨hinner, _, entry, hclient c hc, rfl, he, ht, rfl⟩
        have hsame : c = c' := of_decide_eq_true hc'
        rw [← hsame]
        exact hlive
      · rw [ht]
        exact h.goes ⟨rfl, rfl, rfl, rfl, rfl, rfl, rfl⟩ rfl rfl rfl hpub nofun hkeeps
          ⟨hinner, entry, he, rfl, ht⟩

/-- The file is opened. -/
theorem Sound.opening {id : RostraId} (h : w.Sound maxClients trace) (hpc : w.pc = .opening id) :
    ({ w with
      next := w.next + 1
      databases := w.databases.insert w.next id
      pc := .attaching id w.next } : MultiWorld).Sound maxClients trace := by
  have hl := h.linked
  have hplaced := h.placed
  unfold Placed at hplaced
  rw [hpc] at hplaced
  obtain ⟨hnew, -, -⟩ := hl.fresh w.next le_rfl
  have hkeep : ∀ d id', w.databases.get d = some id' →
      (w.databases.insert w.next id).get d = some id' :=
    fun _ _ => Table.get_insert_new hnew
  have halive : ∀ c, ({ w with
      next := w.next + 1
      databases := w.databases.insert w.next id
      pc := .attaching id w.next } : MultiWorld).alive c = true → w.alive c = true :=
    fun _ hlive => alive_moved hlive rfl rfl nofun
  refine ⟨⟨fun n hn => ?_, hl.registered, fun c hc => alive_false (hl.dead c hc) (halive c), hl.gone,
    fun c hc => hl.built c (halive c hc), fun c k hk hc => hkeep _ _ (hl.stored c k hk hc),
    fun c k hk => (hl.named c k hk).trans (Nat.lt_succ_self _), fun d hd => ?_, hl.separate, hl.loaded,
    fun id' e he => ?_⟩, ⟨h.tracked.tasks, fun d id' hd => ?_, fun id' c e hc he => ?_⟩, ?_,
    h.ordered.moved (by rw [hpc]; rfl) rfl rfl⟩
  · have hle : w.next + 1 ≤ n := hn
    obtain ⟨hd, hrest⟩ := hl.fresh n (Nat.le_of_succ_le hle)
    refine ⟨?_, hrest⟩
    rw [Table.get_insert_of_ne _ _ (Nat.ne_of_gt hle), hd]
  · obtain ⟨id', hid'⟩ := hl.handled d hd
    exact ⟨id', hkeep _ _ hid'⟩
  · obtain ⟨hd, hrest⟩ := hl.kept id' e he
    exact ⟨hkeep _ _ hd, hrest⟩
  · have hget : (w.databases.insert w.next id).get d = some id' := hd
    rw [Table.get_insert] at hget
    split at hget
    · next heq => exact .inr (.inr ⟨Option.some.inj hget, heq.symm⟩)
    · rcases h.tracked.databases d id' hget with hin | hin | hk
      · exact .inl hin
      · exact .inr (.inl hin)
      · rw [hpc] at hk
        exact hk.elim
  · have hwindow := h.tracked.once id' c e hc he
    rw [hpc] at hwindow
    cases hwindow
  · refine ⟨hplaced.1, hplaced.2, Table.get_insert_self _ _ _, fun hin => ?_, fun c k hk heq => ?_⟩
    · obtain ⟨id', hid'⟩ := hl.handled _ hin
      rw [hnew] at hid'
      cases hid'
    · exact absurd (hl.named c k hk) (by rw [heq]; exact lt_irrefl _)

/-- The entry of a client that is going to be constructed. -/
theorem Sound.prepared {id : RostraId} {d : DatabaseRef} (h : w.Sound maxClients trace)
    (hpc : w.pc = .prepared id d) :
    ({ w with
      next := w.next + 1
      tasks := w.tasks.insert w.next { id := id }
      retired := w.retired.insert id ⟨none, d, some w.next⟩
      retiredCleanupRunning := true
      pc := .constructing id d w.next } : MultiWorld).Sound maxClients trace := by
  have hl := h.linked
  have hplaced := h.placed
  unfold Placed at hplaced
  rw [hpc] at hplaced
  obtain ⟨hinner, hdatabase, hentry⟩ := hplaced
  obtain ⟨-, -, hnew⟩ := hl.fresh w.next le_rfl
  have hkeep : ∀ t tasks, w.tasks.get t = some tasks →
      (w.tasks.insert w.next { id := id }).get t = some tasks :=
    fun _ _ => Table.get_insert_new hnew
  have halive : ∀ c, ({ w with
      next := w.next + 1
      tasks := w.tasks.insert w.next { id := id }
      retired := w.retired.insert id ⟨none, d, some w.next⟩
      retiredCleanupRunning := true
      pc := .constructing id d w.next } : MultiWorld).alive c = true → w.alive c = true :=
    fun _ hlive => alive_moved hlive rfl rfl nofun
  refine ⟨⟨fun n hn => ?_, fun c k hk => ?_, fun c hc => alive_false (hl.dead c hc) (halive c), hl.gone,
    fun c hc => hl.built c (halive c hc), hl.stored,
    fun c k hk => (hl.named c k hk).trans (Nat.lt_succ_self _), hl.handled, hl.separate, hl.loaded,
    fun id' e he => ?_⟩, ⟨fun t tasks ht hopen => ?_, fun d' id' hd => ?_, fun id' c e hc he => ?_⟩, ?_,
    h.ordered.moved (by rw [hpc]; rfl) rfl rfl⟩
  · have hle : w.next + 1 ≤ n := hn
    obtain ⟨hd, hc, ht⟩ := hl.fresh n (Nat.le_of_succ_le hle)
    refine ⟨hd, hc, ?_⟩
    rw [Table.get_insert_of_ne _ _ (Nat.ne_of_gt hle), ht]
  · obtain ⟨tasks, htasks, hrest⟩ := hl.registered c k hk
    exact ⟨tasks, hkeep _ _ htasks, hrest⟩
  · have hget : (w.retired.insert id ⟨none, d, some w.next⟩).get id' = some e := he
    rw [Table.get_insert] at hget
    split at hget
    · next heq =>
      cases hget
      rw [heq]
      exact ⟨hdatabase, w.next, { id := id }, rfl, Table.get_insert_self _ _ _, rfl, nofun⟩
    · obtain ⟨hd, t, tasks, ht, htasks, hrest⟩ := hl.kept id' e hget
      exact ⟨hd, t, tasks, ht, hkeep _ _ htasks, hrest⟩
  · have hget : (w.tasks.insert w.next { id := id }).get t = some tasks := ht
    rw [Table.get_insert] at hget
    split at hget
    · next heq =>
      cases hget
      exact .inr ⟨_, Table.get_insert_self _ _ _, by rw [heq]⟩
    · rcases h.tracked.tasks t tasks hget hopen with hin | ⟨e, he, het⟩
      · exact .inl hin
      · by_cases hid : tasks.id = id
        · -- the entry that is replaced has terminated
          rw [hid] at he
          have hdone := (hentry e he).2 t het
          rw [isTerminated, hget, Option.any_some, hopen] at hdone
          cases hdone
        · refine .inr ⟨e, ?_, het⟩
          show (w.retired.insert id _).get tasks.id = some e
          rw [Table.get_insert_of_ne _ _ hid, he]
  · rcases h.tracked.databases d' id' hd with hin | ⟨e, he, hed⟩ | hk
    · exact .inl hin
    · by_cases hid : id' = id
      · rw [hid] at he
        refine .inr (.inl ⟨_, by rw [hid]; exact Table.get_insert_self _ _ _, ?_⟩)
        rw [← (hentry e he).1, hed]
      · refine .inr (.inl ⟨e, ?_, hed⟩)
        show (w.retired.insert id _).get id' = some e
        rw [Table.get_insert_of_ne _ _ hid, he]
    · rw [hpc] at hk
      refine .inr (.inl ⟨_, by rw [← hk.1]; exact Table.get_insert_self _ _ _, hk.2⟩)
  · have hget : (w.retired.insert id ⟨none, d, some w.next⟩).get id' = some e := he
    rw [Table.get_insert] at hget
    split at hget
    · next heq =>
      have hloaded : w.inner.get id' = some c := hc
      rw [heq, hinner] at hloaded
      cases hloaded
    · have hwindow := h.tracked.once id' c e hc hget
      rw [hpc] at hwindow
      cases hwindow
  · refine ⟨hinner, Table.get_insert_self _ _ _, ⟨_, Table.get_insert_self _ _ _, rfl⟩,
      fun c k hk heq => ?_⟩
    obtain ⟨tasks, htasks, -⟩ := hl.registered c k hk
    rw [heq, hnew] at htasks
    cases htasks

/-- There is a client. -/
theorem Sound.constructing {id : RostraId} {d : DatabaseRef} {t : TasksRef}
    (h : w.Sound maxClients trace) (hpc : w.pc = .constructing id d t) :
    ({ w with
      next := w.next + 1
      clients := w.clients.insert w.next ⟨id, d, t⟩
      pc := .starting id w.next } : MultiWorld).Sound maxClients trace := by
  have hl := h.linked
  have hplaced := h.placed
  unfold Placed at hplaced
  rw [hpc] at hplaced
  obtain ⟨hinner, hretired, ⟨tasks, htasks, hrun⟩, hno⟩ := hplaced
  obtain ⟨hdatabase, t', tasks', ht', htasks', hid, -⟩ := hl.kept id _ hretired
  cases ht'
  rw [htasks] at htasks'
  cases htasks'
  obtain ⟨-, hnew, -⟩ := hl.fresh w.next le_rfl
  have hunreleased : w.next ∉ w.released := by
    intro hin
    obtain ⟨k, hk⟩ := hl.gone _ hin
    rw [hnew] at hk
    cases hk
  have hget : ∀ c k, (w.clients.insert w.next ⟨id, d, t⟩).get c = some k →
      (c = w.next ∧ k = ⟨id, d, t⟩) ∨ w.clients.get c = some k := by
    intro c k hk
    rw [Table.get_insert] at hk
    split at hk
    · next heq => exact .inl ⟨heq, (Option.some.inj hk).symm⟩
    · exact .inr hk
  have hkeep : ∀ c k, w.clients.get c = some k →
      (w.clients.insert w.next ⟨id, d, t⟩).get c = some k :=
    fun _ _ => Table.get_insert_new hnew
  have halive : ∀ c, ({ w with
      next := w.next + 1
      clients := w.clients.insert w.next ⟨id, d, t⟩
      pc := .starting id w.next } : MultiWorld).alive c = true → c = w.next ∨ w.alive c = true := by
    intro c hc
    rw [alive_iff] at hc
    rcases hc with hc | hc | hc
    · exact .inr (alive_iff.mpr (.inl hc))
    · exact .inr (alive_iff.mpr (.inr (.inl hc)))
    · exact .inl (of_decide_eq_true hc).symm
  refine ⟨⟨fun n hn => ?_, fun c k hk => ?_, fun c hc => ?_, fun c hc => ?_, fun c hc => ?_,
    fun c k hk hc => ?_, fun c k hk => ?_, hl.handled, fun c c' k k' hk hk' heq => ?_,
    fun id' c hc => ?_, fun id' e he => ?_⟩, ⟨fun t' tasks' ht' hopen => ?_, fun d' id' hd => ?_,
    fun id' c e hc he => ?_⟩, ?_, h.ordered.moved (by rw [hpc]; rfl) rfl rfl⟩
  · have hle : w.next + 1 ≤ n := hn
    obtain ⟨hd, hc, ht⟩ := hl.fresh n (Nat.le_of_succ_le hle)
    refine ⟨hd, ?_, ht⟩
    rw [Table.get_insert_of_ne _ _ (Nat.ne_of_gt hle), hc]
  · rcases hget c k hk with ⟨rfl, rfl⟩ | hk
    · exact ⟨tasks, htasks, hid, fun hstopped => by rw [hrun] at hstopped; cases hstopped⟩
    · exact hl.registered c k hk
  · refine alive_false (hl.dead c hc) fun hlive => (halive c hlive).resolve_left ?_
    rintro rfl
    exact hunreleased hc
  · obtain ⟨k, hk⟩ := hl.gone c hc
    exact ⟨k, hkeep c k hk⟩
  · rcases halive c hc with rfl | hc
    · exact ⟨_, Table.get_insert_self _ _ _⟩
    · obtain ⟨k, hk⟩ := hl.built c hc
      exact ⟨k, hkeep c k hk⟩
  · rcases hget c k hk with ⟨-, rfl⟩ | hk
    · exact hdatabase
    · exact hl.stored c k hk hc
  · rcases hget c k hk with ⟨-, rfl⟩ | hk
    · by_contra hout
      obtain ⟨hnone, -, -⟩ := hl.fresh d (Nat.le_of_succ_le (Nat.le_of_not_lt hout))
      rw [hdatabase] at hnone
      cases hnone
    · exact (hl.named c k hk).trans (Nat.lt_succ_self _)
  · rcases hget c k hk with ⟨rfl, rfl⟩ | hk
    · rcases hget c' k' hk' with ⟨rfl, -⟩ | hk'
      · rfl
      · exact absurd heq.symm (hno c' k' hk')
    · rcases hget c' k' hk' with ⟨-, rfl⟩ | hk'
      · exact absurd heq (hno c k hk)
      · exact hl.separate c c' k k' hk hk' heq
  · obtain ⟨k, hk, hkid⟩ := hl.loaded id' c hc
    exact ⟨k, hkeep c k hk, hkid⟩
  · obtain ⟨hd, t', tasks', ht', htasks', hid', hclient⟩ := hl.kept id' e he
    exact ⟨hd, t', tasks', ht', htasks', hid', fun c hc => hkeep _ _ (hclient c hc)⟩
  · rcases h.tracked.tasks t' tasks' ht' hopen with ⟨c, k, hc, hk, hkt⟩ | hin
    · exact .inl ⟨c, k, hc, hkeep c k hk, hkt⟩
    · exact .inr hin
  · rcases h.tracked.databases d' id' hd with ⟨c, k, hc, hk, hkd⟩ | hin | hk
    · exact .inl ⟨c, k, hc, hkeep c k hk, hkd⟩
    · exact .inr (.inl hin)
    · rw [hpc] at hk
      exact hk.elim
  · have hwindow := h.tracked.once id' c e hc he
    rw [hpc] at hwindow
    cases hwindow
  · exact ⟨hinner, ⟨id, d, t⟩, _, Table.get_insert_self _ _ _, rfl, hretired, rfl, rfl⟩

/-- The construction fails: the owner of the tasks is dropped, and the entry stays. -/
theorem Sound.constructingFails {id : RostraId} {d : DatabaseRef} {t : TasksRef}
    (h : w.Sound maxClients trace) (hpc : w.pc = .constructing id d t) :
    ({ w with
      tasks := (w.tasks.get t).elim w.tasks fun tasks => w.tasks.insert t tasks.abort
      pc := .idle } : MultiWorld).Sound maxClients trace := by
  have hplaced := h.placed
  unfold Placed at hplaced
  rw [hpc] at hplaced
  obtain ⟨-, -, ⟨tasks, htasks, hrun⟩, hno⟩ := hplaced
  have hidle : ({ w with pc := .idle } : MultiWorld).Sound maxClients trace :=
    h.goes ⟨rfl, rfl, rfl, rfl, rfl, rfl, rfl⟩ rfl rfl rfl (by rw [hpc]; rfl) nofun
      (fun id d _ hk => by rw [hpc] at hk; exact hk.elim) trivial
  rw [htasks, Option.elim_some]
  refine hidle.retask htasks rfl (fun hdone => ?_)
    fun _ => .inr ⟨fun c k hk heq => absurd heq (hno c k hk), nofun⟩
  simp [ClientTasks.terminated, hrun] at hdone

/-! ### Publication

A client that is constructed replaces others when there are too many, is entered into `inner`, loses its entry in
`retired`, and is queued as the most recently used one. From the first to the last of these statements the usage
queue lacks its identity, which is the one exception that `Ordered` admits. -/

/-- What holds while clients are evicted for another one. The new one has an entry in `retired` until there is room
for it in `inner`. -/
structure Evicting (w : MultiWorld) (id : RostraId) (c : ClientRef) : Prop where
  linked : w.Linked
  tracked : w.Tracked
  place : w.pc = .evicting id c
  missing : w.inner.get id = none
  entered : w.Entered id c

/-- One client goes from `inner` to `retired`, with all that belongs to it. -/
theorem Evicting.evictOne {id id' : RostraId} {c : ClientRef} (h : w.Evicting id c) :
    (w.evictOne id').Evicting id c := by
  have hl := h.linked
  unfold MultiWorld.evictOne
  cases hc' : w.inner.get id' with
  | none => exact h
  | some c' =>
    obtain ⟨k', hk', hid'⟩ := hl.loaded id' c' hc'
    dsimp only
    rw [hk']
    dsimp only
    have hlive : w.alive c' = true := alive_iff.mpr (.inr (.inl ⟨id', hc'⟩))
    have hunreleased : c' ∉ w.released := by
      intro hin
      rw [hl.dead c' hin] at hlive
      cases hlive
    have hne : id ≠ id' := by
      rintro rfl
      rw [h.missing] at hc'
      cases hc'
    have hinner : ∀ x y, (w.inner.remove id').get x = some y → x ≠ id' ∧ w.inner.get x = some y := by
      intro x y hy
      rw [Table.get_remove] at hy
      split at hy
      · cases hy
      · next hx => exact ⟨hx, hy⟩
    have halive : ∀ x, ({ w with
        inner := w.inner.remove id'
        retired := w.retired.insert id' ⟨some c', k'.database, some k'.tasks⟩
        retiredCleanupRunning := true } : MultiWorld).alive x = true → w.alive x = true := by
      intro x hx
      rw [alive_iff] at hx ⊢
      rcases hx with hx | ⟨y, hy⟩ | hx
      · exact .inl hx
      · exact .inr (.inl ⟨y, (hinner y x hy).2⟩)
      · exact .inr (.inr hx)
    -- what was found through `inner` is found through the new entry
    refine ⟨⟨hl.fresh, hl.registered, fun x hx => alive_false (hl.dead x hx) (halive x), hl.gone,
      fun x hx => hl.built x (halive x hx), hl.stored, hl.named, hl.handled, hl.separate,
      fun x y hy => hl.loaded x y (hinner x y hy).2, fun x e he => ?_⟩,
      ⟨fun t tasks ht hopen => ?_, fun d x hd => ?_, fun x y e hy he => ?_⟩, h.place, ?_, ?_⟩
    · have hget : (w.retired.insert id' ⟨some c', k'.database, some k'.tasks⟩).get x = some e := he
      rw [Table.get_insert] at hget
      split at hget
      · next heq =>
        cases hget
        obtain ⟨tasks, htasks, htid, -⟩ := hl.registered c' k' hk'
        refine ⟨?_, k'.tasks, tasks, rfl, htasks, ?_, fun y hy => ?_⟩
        · rw [heq, ← hid']
          exact hl.stored c' k' hk' hunreleased
        · rw [htid, hid', heq]
        · cases hy
          rw [heq, ← hid']
          exact hk'
      · exact hl.kept x e hget
    · rcases h.tracked.tasks t tasks ht hopen with ⟨y, k, hy, hk, hkt⟩ | ⟨e, he, het⟩
      · by_cases hx : tasks.id = id'
        · rw [hx, hc'] at hy
          cases hy
          rw [hk'] at hk
          cases hk
          exact .inr ⟨_, by rw [hx]; exact Table.get_insert_self _ _ _, by rw [hkt]⟩
        · exact .inl ⟨y, k, by rw [← hy]; exact Table.get_remove_of_ne _ hx, hk, hkt⟩
      · refine .inr ⟨e, ?_, het⟩
        rw [← he]
        refine Table.get_insert_of_ne _ _ fun hx => ?_
        rw [hx] at he
        have hwindow := h.tracked.once id' c' e hc' he
        rw [h.place] at hwindow
        cases hwindow
    · rcases h.tracked.databases d x hd with ⟨y, k, hy, hk, hkd⟩ | ⟨e, he, hed⟩ | hk
      · by_cases hx : x = id'
        · rw [hx, hc'] at hy
          cases hy
          rw [hk'] at hk
          cases hk
          exact .inr (.inl ⟨_, by rw [hx]; exact Table.get_insert_self _ _ _, hkd⟩)
        · exact .inl ⟨y, k, by rw [← hy]; exact Table.get_remove_of_ne _ hx, hk, hkd⟩
      · refine .inr (.inl ⟨e, ?_, hed⟩)
        rw [← he]
        refine Table.get_insert_of_ne _ _ fun hx => ?_
        rw [hx] at he
        have hwindow := h.tracked.once id' c' e hc' he
        rw [h.place] at hwindow
        cases hwindow
      · rw [h.place] at hk
        exact hk.elim
    · obtain ⟨hx, hy⟩ := hinner x y hy
      have hget : (w.retired.insert id' ⟨some c', k'.database, some k'.tasks⟩).get x = some e := he
      rw [Table.get_insert_of_ne _ _ hx] at hget
      exact h.tracked.once x y e hy hget
    · exact (Table.get_remove_of_ne _ hne).trans h.missing
    · obtain ⟨k, e, hk, hkid, he, het, hed⟩ := h.entered
      exact ⟨k, e, hk, hkid, (Table.get_insert_of_ne _ _ hne).trans he, het, hed⟩

theorem usageQueue_evictOne (w : MultiWorld) (id : RostraId) :
    (w.evictOne id).usageQueue = w.usageQueue := by
  unfold MultiWorld.evictOne
  split
  · rfl
  split
  · rfl
  · rfl

/-- An identity that is evicted is not loaded, and the others stay. -/
theorem Evicting.inner_evictOne {id id' : RostraId} {c : ClientRef} (h : w.Evicting id c)
    (x : RostraId) : (w.evictOne id').inner.get x = if x = id' then none else w.inner.get x := by
  unfold MultiWorld.evictOne
  cases hc' : w.inner.get id' with
  | none =>
    dsimp only
    split
    · next heq => rw [heq, hc']
    · rfl
  | some c' =>
    obtain ⟨k', hk', -⟩ := h.linked.loaded id' c' hc'
    dsimp only
    rw [hk']
    exact Table.get_remove _ _ _

/-- All of `to_evict`. -/
theorem Evicting.evictAll {id : RostraId} {c : ClientRef} (ids : List RostraId) :
    ∀ {w : MultiWorld}, w.Evicting id c → (ids.foldl MultiWorld.evictOne w).Evicting id c ∧
      (ids.foldl MultiWorld.evictOne w).usageQueue = w.usageQueue ∧
      ∀ x, (ids.foldl MultiWorld.evictOne w).inner.get x = if x ∈ ids then none else w.inner.get x := by
  induction ids with
  | nil => exact fun h => ⟨h, rfl, fun x => by simp⟩
  | cons id' ids ih =>
    intro w h
    obtain ⟨hdone, hqueue, hinner⟩ := ih (@Evicting.evictOne w id id' c h)
    refine ⟨hdone, hqueue.trans (usageQueue_evictOne w id'), fun x => ?_⟩
    rw [List.foldl_cons, hinner x, h.inner_evictOne x]
    by_cases hx : x = id'
    · simp [hx]
    · simp [hx]

/-- A label that is no use changes nothing. -/
theorem Sound.shown {shown : List MultiLabel} (h : w.Sound maxClients trace) (hshown : uses shown = []) :
    w.Sound maxClients (trace ++ shown) := by
  have huses : uses (trace ++ shown) = uses trace := by
    rw [uses_append, hshown, List.append_nil]
  refine ⟨h.linked, h.tracked, h.placed, h.ordered.room, ?_, ?_⟩
  · rw [huses]
    exact h.ordered.queue
  · rw [huses]
    exact h.ordered.listed

/-- The queue has every loaded identity once. -/
theorem Ordered.exact (h : w.Ordered maxClients trace) (hpc : w.pc.publishing = none) :
    w.usageQueue.Nodup ∧ w.usageQueue.toFinset = w.inner.keys := by
  obtain ⟨hq, hlisted⟩ := h.quiet hpc
  rw [hq]
  refine ⟨(Lru.nodup_order _).filter _, ?_⟩
  ext id
  simp only [List.mem_toFinset, List.mem_filter, decide_eq_true_eq]
  exact ⟨fun hid => hid.2, fun hid => ⟨hlisted id hid, hid⟩⟩

/-- There is room after an eviction. -/
theorem card_evicted {inner : Table RostraId ClientRef} (hqueue : w.usageQueue.Nodup)
    (hall : w.usageQueue.toFinset = w.inner.keys) (hmax : 1 ≤ maxClients)
    (hfull : maxClients ≤ w.inner.keys.card)
    (hinner : ∀ x, inner.get x = if x ∈ w.toEvict maxClients then none else w.inner.get x) :
    inner.keys.card < maxClients := by
  have hkeys : inner.keys = w.inner.keys \ (w.toEvict maxClients).toFinset := by
    ext x
    rw [Finset.mem_sdiff, List.mem_toFinset, Table.mem_keys, Table.mem_keys, hinner x]
    by_cases hx : x ∈ w.toEvict maxClients
    · simp [hx]
    · simp [hx]
  have hsub : (w.toEvict maxClients).toFinset ⊆ w.inner.keys := by
    intro x hx
    rw [← hall, List.mem_toFinset]
    exact List.mem_reverse.mp (List.mem_of_mem_take (List.mem_toFinset.mp hx))
  have hlength : w.usageQueue.length = w.inner.keys.card := by
    rw [← hall, List.toFinset_card_of_nodup hqueue]
  have hnodup : (w.toEvict maxClients).Nodup :=
    (List.nodup_reverse.mpr hqueue).sublist (List.take_sublist _ _)
  rw [hkeys, Finset.card_sdiff_of_subset hsub, List.toFinset_card_of_nodup hnodup]
  unfold toEvict
  rw [List.length_take, List.length_reverse, hlength]
  omega

/-- `maybe_evict_clients`. -/
theorem Sound.evicting {id : RostraId} {c : ClientRef} (h : w.Sound maxClients trace)
    (hpc : w.pc = .evicting id c) (hmax : 1 ≤ maxClients) :
    ({ (w.maybeEvictClients maxClients).1 with pc := .inserting id c } : MultiWorld).Sound maxClients
      (trace ++ (w.maybeEvictClients maxClients).2) := by
  have hplaced := h.placed
  unfold Placed at hplaced
  rw [hpc] at hplaced
  have hquiet : w.pc.publishing = none := by
    rw [hpc]
    rfl
  unfold MultiWorld.maybeEvictClients
  split
  · next hroom =>
    rw [List.append_nil]
    refine h.goes ⟨rfl, rfl, rfl, rfl, rfl, rfl, rfl⟩ rfl rfl rfl hquiet (fun c' hc' => ?_)
      (fun id d _ hk => by rw [hpc] at hk; exact hk.elim) ⟨hplaced.1, hplaced.2, hroom⟩
    refine holdsClient_alive ?_
    rw [hpc]
    exact hc'
  · next hfull =>
    dsimp only
    have hstart : w.Evicting id c := ⟨h.linked, h.tracked, hpc, hplaced.1, hplaced.2⟩
    obtain ⟨hdone, hqueue, hinner⟩ := hstart.evictAll (w.toEvict maxClients)
    generalize (w.toEvict maxClients).foldl MultiWorld.evictOne w = v at hdone hqueue hinner ⊢
    obtain ⟨hnodup, hall⟩ := h.ordered.exact hquiet
    have hroom := card_evicted hnodup hall hmax (Nat.le_of_not_lt hfull) hinner
    have hsub : ∀ x, x ∈ v.inner.keys → x ∈ w.inner.keys := by
      intro x hx
      obtain ⟨y, hy⟩ := Table.mem_keys.mp hx
      rw [hinner x] at hy
      split at hy
      · cases hy
      · exact Table.mem_keys_of_get hy
    have hcore : SameCore v { v with
        usageQueue := v.usageQueue.filter (· ∈ v.inner.keys)
        pc := .inserting id c } := ⟨rfl, rfl, rfl, rfl, rfl, rfl, rfl⟩
    refine Sound.shown ⟨hdone.linked.frame hcore (fun _ hlive => alive_moved hlive rfl rfl fun c' hc' => ?_) fun _ hd => .inl hd,
      hdone.tracked.goes hcore (fun _ _ hw => ?_) (fun id d _ hk => ?_),
      ⟨hdone.missing, hdone.entered, hroom⟩, hroom.le, .inl ?_, fun x hx => .inl ?_⟩ rfl
    · refine holdsClient_alive ?_
      rw [hdone.place]
      exact hc'
    · rw [hdone.place] at hw
      cases hw
    · rw [hdone.place] at hk
      exact hk.elim
    · obtain ⟨hq, -⟩ := h.ordered.quiet hquiet
      show v.usageQueue.filter (· ∈ v.inner.keys) = _
      rw [hqueue, hq, List.filter_filter]
      refine List.filter_congr fun x _ => ?_
      by_cases hx : x ∈ v.inner.keys
      · simp [hx, hsub x hx]
      · simp [hx]
    · exact (h.ordered.quiet hquiet).2 x (hsub x hx)

/-- The client is loaded: from now on it is in `inner` and in `retired`. -/
theorem Sound.inserting {id : RostraId} {c : ClientRef} (h : w.Sound maxClients trace)
    (hpc : w.pc = .inserting id c) :
    ({ w with inner := w.inner.insert id c, pc := .unretiring id c } : MultiWorld).Sound maxClients
      trace := by
  have hl := h.linked
  have hplaced := h.placed
  unfold Placed at hplaced
  rw [hpc] at hplaced
  obtain ⟨hmissing, hentered, hroom⟩ := hplaced
  have hquiet : w.pc.publishing = none := by
    rw [hpc]
    rfl
  have hheld : w.alive c = true := holdsClient_alive (by rw [hpc]; exact decide_eq_true rfl)
  have hget : ∀ x y, (w.inner.insert id c).get x = some y →
      (x = id ∧ y = c) ∨ w.inner.get x = some y := by
    intro x y hy
    rw [Table.get_insert] at hy
    split at hy
    · next heq => exact .inl ⟨heq, (Option.some.inj hy).symm⟩
    · exact .inr hy
  have hkeep : ∀ x y, w.inner.get x = some y → (w.inner.insert id c).get x = some y :=
    fun _ _ => Table.get_insert_new hmissing
  have halive : ∀ x, ({ w with inner := w.inner.insert id c, pc := .unretiring id c } :
      MultiWorld).alive x = true → w.alive x = true := by
    intro x hx
    rw [alive_iff] at hx
    rcases hx with hx | ⟨y, hy⟩ | hx
    · exact alive_iff.mpr (.inl hx)
    · rcases hget y x hy with ⟨-, rfl⟩ | hy
      · exact hheld
      · exact alive_iff.mpr (.inr (.inl ⟨y, hy⟩))
    · rw [← of_decide_eq_true hx]
      exact hheld
  have hkeys : (w.inner.insert id c).keys = insert id w.inner.keys := Table.keys_insert _ _ _
  have hout : id ∉ w.inner.keys := by
    intro hin
    obtain ⟨y, hy⟩ := Table.mem_keys.mp hin
    rw [hmissing] at hy
    cases hy
  obtain ⟨hq, hlisted⟩ := h.ordered.quiet hquiet
  refine ⟨⟨hl.fresh, hl.registered, fun x hx => alive_false (hl.dead x hx) (halive x), hl.gone,
    fun x hx => hl.built x (halive x hx), hl.stored, hl.named, hl.handled, hl.separate,
    fun x y hy => ?_, hl.kept⟩, ⟨fun t tasks ht hopen => ?_, fun d x hd => ?_, fun x y e hy he => ?_⟩,
    ⟨Table.get_insert_self _ _ _, hentered⟩, ?_, .inr ⟨id, rfl, ?_⟩, fun x hx => ?_⟩
  · rcases hget x y hy with ⟨rfl, rfl⟩ | hy
    · obtain ⟨k, -, hk, hkid, -⟩ := hentered
      exact ⟨k, hk, hkid⟩
    · exact hl.loaded x y hy
  · rcases h.tracked.tasks t tasks ht hopen with ⟨y, k, hy, hk, hkt⟩ | hin
    · exact .inl ⟨y, k, hkeep _ _ hy, hk, hkt⟩
    · exact .inr hin
  · rcases h.tracked.databases d x hd with ⟨y, k, hy, hk, hkd⟩ | hin | hk
    · exact .inl ⟨y, k, hkeep _ _ hy, hk, hkd⟩
    · exact .inr (.inl hin)
    · rw [hpc] at hk
      exact hk.elim
  · rcases hget x y hy with ⟨rfl, rfl⟩ | hy
    · rfl
    · have hwindow := h.tracked.once x y e hy he
      rw [hpc] at hwindow
      cases hwindow
  · show (w.inner.insert id c).keys.card ≤ maxClients
    rw [hkeys, Finset.card_insert_of_notMem hout]
    exact hroom
  · show w.usageQueue = _
    rw [hq, List.filter_filter]
    refine List.filter_congr fun x _ => ?_
    rw [hkeys]
    by_cases hx : x = id
    · simp [hx, hout]
    · simp [hx]
  · rw [hkeys, Finset.mem_insert] at hx
    rcases hx with rfl | hx
    · exact .inr rfl
    · exact .inl (hlisted x hx)

/-- The entry of a client that is loaded goes. -/
theorem Sound.unretiring {id : RostraId} {c : ClientRef} (h : w.Sound maxClients trace)
    (hpc : w.pc = .unretiring id c) :
    ({ w with retired := w.retired.remove id, pc := .queueing id c } : MultiWorld).Sound maxClients
      trace := by
  have hl := h.linked
  have hplaced := h.placed
  unfold Placed at hplaced
  rw [hpc] at hplaced
  obtain ⟨hloaded, k, e, hk, hkid, he, het, hed⟩ := hplaced
  have halive : ∀ x, ({ w with retired := w.retired.remove id, pc := .queueing id c } :
      MultiWorld).alive x = true → w.alive x = true :=
    fun _ hlive => alive_moved hlive rfl rfl fun x hx => holdsClient_alive (by rw [hpc]; exact hx)
  have hget : ∀ x e', (w.retired.remove id).get x = some e' → x ≠ id ∧ w.retired.get x = some e' := by
    intro x e' he'
    rw [Table.get_remove] at he'
    split at he'
    · cases he'
    · next hx => exact ⟨hx, he'⟩
  refine ⟨⟨hl.fresh, hl.registered, fun x hx => alive_false (hl.dead x hx) (halive x), hl.gone,
    fun x hx => hl.built x (halive x hx), hl.stored, hl.named, hl.handled, hl.separate, hl.loaded,
    fun x e' he' => hl.kept x e' (hget x e' he').2⟩,
    ⟨fun t tasks ht hopen => ?_, fun d x hd => ?_, fun x y e' hy he' => ?_⟩, hloaded, h.ordered.room,
    ?_, ?_⟩
  · rcases h.tracked.tasks t tasks ht hopen with hin | ⟨e', he', het'⟩
    · exact .inl hin
    · by_cases hx : tasks.id = id
      · -- the entry was that of the client, which has the registry
        rw [hx, he] at he'
        cases he'
        rw [het] at het'
        exact .inl ⟨c, k, by rw [hx]; exact hloaded, hk, Option.some.inj het'⟩
      · exact .inr ⟨e', (Table.get_remove_of_ne _ hx).trans he', het'⟩
  · rcases h.tracked.databases d x hd with hin | ⟨e', he', hed'⟩ | hkeeps
    · exact .inl hin
    · by_cases hx : x = id
      · rw [hx, he] at he'
        cases he'
        exact .inl ⟨c, k, by rw [hx]; exact hloaded, hk, hed.symm.trans hed'⟩
      · exact .inr (.inl ⟨e', (Table.get_remove_of_ne _ hx).trans he', hed'⟩)
    · rw [hpc] at hkeeps
      exact hkeeps.elim
  · obtain ⟨hx, he'⟩ := hget x e' he'
    have hwindow := h.tracked.once x y e' hy he'
    rw [hpc] at hwindow
    cases hwindow
    exact absurd rfl hx
  · rcases h.ordered.queue with hq | ⟨x, hpub, hq⟩
    · exact .inl hq
    · rw [hpc] at hpub
      exact .inr ⟨x, hpub, hq⟩
  · intro x hx
    have hlisted := h.ordered.listed x hx
    rw [hpc] at hlisted
    exact hlisted

/-- The client is given to the caller. -/
theorem Sound.gives {id : RostraId} {c : ClientRef} (h : w.Sound maxClients trace)
    (hpc : w.pc = .lookup id ∨ w.pc = .queueing id c) (hc : w.inner.get id = some c) (kept : Bool) :
    ((w.updateUsageQueue id).give id c kept).1.Sound maxClients
      (trace ++ ((w.updateUsageQueue id).give id c kept).2) := by
  have hcore : SameCore w ((w.updateUsageQueue id).give id c kept).1 := ⟨rfl, rfl, rfl, rfl, rfl, rfl, rfl⟩
  have hlive : w.alive c = true := alive_iff.mpr (.inr (.inl ⟨id, hc⟩))
  refine ⟨h.linked.frame hcore (alive_cons hlive rfl (fun c' hc' => ?_) rfl nofun) fun _ hd => .inl hd,
    h.tracked.goes hcore (fun _ _ hw => ?_) (fun id d _ hk => ?_), trivial,
    h.ordered.touch (Table.mem_keys_of_get hc) rfl rfl rfl (.inr ⟨rfl, fun id' hpub => ?_⟩)⟩
  · cases kept with
    | true => exact Multiset.mem_cons.mp hc'
    | false => exact .inr hc'
  · rcases hpc with hpc | hpc
    · rw [hpc] at hw
      cases hw
    · rw [hpc] at hw
      cases hw
  · rcases hpc with hpc | hpc
    · rw [hpc] at hk
      exact hk.elim
    · rw [hpc] at hk
      exact hk.elim
  · rcases hpc with hpc | hpc
    · rw [hpc] at hpub
      cases hpub
    · rw [hpc] at hpub
      exact (Option.some.inj hpub).symm

/-! ### All steps

What is left is the case analysis: every statement, whether it succeeds or fails, and every step outside. -/

/-- A place at which nothing is published and nothing is in the hands of the holder of the lock only. -/
theorem Sound.goesFreely {pc : LoadPc} (h : w.Sound maxClients trace) (hpc : w.pc.publishing = none)
    (hkept : ∀ id d, ¬ w.pc.Keeps id d)
    (hclient : ∀ c, pc.holdsClient c = true → w.pc.holdsClient c = true)
    (hplaced : ({ w with pc := pc } : MultiWorld).Placed maxClients) :
    ({ w with pc := pc } : MultiWorld).Sound maxClients trace :=
  h.goes ⟨rfl, rfl, rfl, rfl, rfl, rfl, rfl⟩ rfl rfl rfl hpc (fun c hc => holdsClient_alive (hclient c hc))
    (fun id d _ hk => absurd hk (hkept id d)) hplaced

/-- The last handle of the database that was let go is closed. -/
theorem Sound.closed {reaper : Reaper} {key : RostraId} {keys : List RostraId} {d : DatabaseRef}
    (h : w.Sound maxClients trace) (hpc : w.pc = .closing reaper key keys d) (hclosed : w.databases.get d = none) :
    ({ w with pc := .budget reaper (some key) keys } : MultiWorld).Sound maxClients trace := by
  have hplaced := h.placed
  unfold Placed at hplaced
  rw [hpc] at hplaced
  refine h.goes ⟨rfl, rfl, rfl, rfl, rfl, rfl, rfl⟩ rfl rfl rfl (by rw [hpc]; rfl) nofun
    (fun id d' hd hk => ?_) hplaced.2
  rw [hpc] at hk
  rw [← hk, hclosed] at hd
  cases hd

/-- The database that was opened belongs to no retired client. -/
theorem Sound.attached {id : RostraId} {d : DatabaseRef} (h : w.Sound maxClients trace)
    (hpc : w.pc = .attaching id d) : ({ w with pc := .prepared id d } : MultiWorld).Sound maxClients trace := by
  have hplaced := h.placed
  unfold Placed at hplaced
  rw [hpc] at hplaced
  refine h.goes ⟨rfl, rfl, rfl, rfl, rfl, rfl, rfl⟩ rfl rfl rfl (by rw [hpc]; rfl) nofun
    (fun id d _ hk => ?_) ⟨hplaced.1, hplaced.2.2.1, fun e he => ?_⟩
  · rw [hpc] at hk
    exact .inr hk
  · have hnone : w.retired.get id = some e := he
    rw [hplaced.2.1] at hnone
    cases hnone

/-- A database that could not be attached is closed. -/
theorem Sound.discarded {d : DatabaseRef} (h : w.Sound maxClients trace) (hpc : w.pc = .discarding d)
    (hclosed : w.databases.get d = none) : ({ w with pc := .idle } : MultiWorld).Sound maxClients trace := by
  refine h.goes ⟨rfl, rfl, rfl, rfl, rfl, rfl, rfl⟩ rfl rfl rfl (by rw [hpc]; rfl) nofun
    (fun id d' hd hk => ?_) trivial
  rw [hpc] at hk
  rw [← hk, hclosed] at hd
  cases hd

/-- The tasks of the client before have ended, so its database is the one to be used. -/
theorem Sound.awaited {id : RostraId} {d : DatabaseRef} {t : TasksRef} (h : w.Sound maxClients trace)
    (hpc : w.pc = .awaiting id d t) (hdone : w.isTerminated t = true) :
    ({ w with pc := .prepared id d } : MultiWorld).Sound maxClients trace := by
  have hplaced := h.placed
  unfold Placed at hplaced
  rw [hpc] at hplaced
  obtain ⟨hmissing, e, he, hed, het⟩ := hplaced
  refine h.goesFreely (by rw [hpc]; rfl) (by rw [hpc]; exact fun _ _ hk => hk) nofun
    ⟨hmissing, ?_, fun e' he' => ?_⟩
  · rw [← hed]
    exact (h.linked.kept id e he).1
  · have hsame : w.retired.get id = some e' := he'
    rw [he] at hsame
    cases hsame
    refine ⟨hed, fun t' ht' => ?_⟩
    rw [het] at ht'
    cases ht'
    exact hdone

/-- **A statement of `load` or of a cleanup keeps the invariant.** One case for each place of the holder; what it
knows there is `Placed`. -/
theorem Sound.go {kept : Bool} {shown : List MultiLabel} (h : w.Sound maxClients trace)
    (hmax : 1 ≤ maxClients) (hgo : w.go maxClients kept = some (w', shown)) :
    w'.Sound maxClients (trace ++ shown) := by
  have hplaced := h.placed
  unfold Placed at hplaced
  unfold MultiWorld.go at hgo
  cases hpc : w.pc with
  | idle =>
    rw [hpc] at hgo
    cases hgo
  | lookup id =>
    simp only [hpc] at hgo
    split at hgo
    · next c hc =>
      cases hgo
      exact h.gives (.inl hpc) hc kept
    · next hmissing =>
      cases hgo
      refine (h.reap (.inr ⟨id, hpc⟩) fun id' heq => ?_).shown rfl
      cases heq
      exact hmissing
  | reaping reaper cursor keys =>
    cases keys with
    | nil =>
      simp only [hpc] at hgo
      cases hgo
      exact (h.reaped hpc).shown rfl
    | cons key keys =>
      simp only [hpc] at hgo
      cases hgo
      exact (h.reapOne hpc).shown rfl
  | closing reaper key keys d =>
    simp only [hpc] at hgo
    split at hgo
    · next hclosed =>
      cases hgo
      exact (h.closed hpc (Option.isNone_iff_eq_none.mp hclosed)).shown rfl
    · cases hgo
  | budget reaper cursor keys =>
    simp only [hpc] at hgo hplaced
    cases hgo
    refine Sound.shown ?_ rfl
    exact h.goesFreely (by rw [hpc]; rfl) (by rw [hpc]; exact fun _ _ hk => hk) nofun hplaced
  | opening id =>
    simp only [hpc] at hgo
    cases hgo
    exact (h.opening hpc).shown rfl
  | attaching id d =>
    simp only [hpc] at hgo
    cases hgo
    exact (h.attached hpc).shown rfl
  | discarding d =>
    simp only [hpc] at hgo
    split at hgo
    · next hclosed =>
      cases hgo
      exact (h.discarded hpc (Option.isNone_iff_eq_none.mp hclosed)).shown rfl
    · cases hgo
  | awaiting id d t =>
    simp only [hpc] at hgo
    split at hgo
    · next hdone =>
      cases hgo
      exact (h.awaited hpc hdone).shown rfl
    · cases hgo
  | prepared id d =>
    simp only [hpc] at hgo
    cases hgo
    exact (h.prepared hpc).shown rfl
  | constructing id d t =>
    simp only [hpc] at hgo
    cases hgo
    exact (h.constructing hpc).shown rfl
  | starting id c =>
    simp only [hpc] at hgo hplaced
    cases hgo
    refine Sound.shown ?_ rfl
    exact h.goesFreely (by rw [hpc]; rfl) (by rw [hpc]; exact fun _ _ hk => hk)
      (by rw [hpc]; exact fun _ hc => hc) hplaced
  | evicting id c =>
    simp only [hpc] at hgo
    cases hgo
    exact h.evicting hpc hmax
  | inserting id c =>
    simp only [hpc] at hgo
    cases hgo
    exact (h.inserting hpc).shown rfl
  | unretiring id c =>
    simp only [hpc] at hgo
    cases hgo
    exact (h.unretiring hpc).shown rfl
  | queueing id c =>
    simp only [hpc] at hgo hplaced
    cases hgo
    exact h.gives (.inr hpc) hplaced kept

/-- A database that only the holder of the lock has. -/
theorem Sound.discards {id : RostraId} {d : DatabaseRef} (h : w.Sound maxClients trace)
    (hpc : w.pc = .attaching id d) :
    ({ w with pc := .discarding d } : MultiWorld).owned d = false := by
  have hplaced := h.placed
  unfold Placed at hplaced
  rw [hpc] at hplaced
  obtain ⟨-, hretired, hd, hhandles, hclients⟩ := hplaced
  rw [← Bool.not_eq_true, owned_iff]
  rintro (hin | ⟨c, k, hk, -, hkd⟩ | ⟨x, e, he, hed⟩ | hin)
  · exact hhandles hin
  · exact hclients c k hk hkd
  · -- the entry would belong to the identity of the database
    have hx := (h.linked.kept x e he).1
    rw [hed, hd] at hx
    cases hx
    have hnone : w.retired.get id = some e := he
    rw [hretired] at hnone
    cases hnone
  · cases hin

theorem Sound.fail (h : w.Sound maxClients trace) (hfail : w.fail = some w') :
    w'.Sound maxClients trace := by
  have hplaced := h.placed
  unfold Placed at hplaced
  unfold MultiWorld.fail at hfail
  split at hfail
  · next reaper key keys d hpc =>
    split at hfail
    · next hclosed =>
      cases hfail
      refine h.goes ⟨rfl, rfl, rfl, rfl, rfl, rfl, rfl⟩ rfl rfl rfl (by rw [hpc]; rfl) nofun
        (fun id d' hd hk => ?_) trivial
      rw [hpc] at hk
      rw [← hk, Option.isNone_iff_eq_none.mp hclosed] at hd
      cases hd
    · cases hfail
  · next id hpc =>
    cases hfail
    exact h.goesFreely (by rw [hpc]; rfl) (by rw [hpc]; exact fun _ _ hk => hk) nofun trivial
  · next id d hpc =>
    cases hfail
    refine h.goes ⟨rfl, rfl, rfl, rfl, rfl, rfl, rfl⟩ rfl rfl rfl (by rw [hpc]; rfl) nofun
      (fun id d _ hk => ?_) (h.discards hpc)
    rw [hpc] at hk
    exact .inr hk.2
  · next id d t hpc =>
    cases hfail
    exact h.constructingFails hpc
  · next id c hpc =>
    cases hfail
    exact h.goesFreely (by rw [hpc]; rfl) (by rw [hpc]; exact fun _ _ hk => hk) nofun trivial
  · cases hfail

/-- **Every step keeps the invariant.** Beside the holder of the lock anybody with a reference may move, tasks may
end, and destructors may run. -/
theorem Sound.step {act : MultiAct} {shown : List MultiLabel} (h : w.Sound maxClients trace)
    (hmax : 1 ≤ maxClients) (hstep : w.step maxClients act = some (w', shown)) :
    w'.Sound maxClients (trace ++ shown) := by
  cases act with
  | touch id =>
    obtain ⟨c, hc, hw⟩ := Option.map_eq_some_iff.mp hstep
    cases hw
    exact h.touch hc
  | load id =>
    simp only [MultiWorld.step] at hstep
    split at hstep
    · next hpc =>
      cases hstep
      refine Sound.shown ?_ rfl
      exact h.goesFreely (by rw [hpc]; rfl) (by rw [hpc]; exact fun _ _ hk => hk) nofun trivial
    · cases hstep
  | cleanup =>
    simp only [MultiWorld.step] at hstep
    split at hstep
    · next hpc =>
      cases hstep
      refine Sound.shown ?_ rfl
      exact h.reap (.inl hpc.1) nofun
    · cases hstep
  | go => exact h.go hmax hstep
  | abandoned => exact h.go hmax hstep
  | fail =>
    obtain ⟨v, hv, hw⟩ := Option.map_eq_some_iff.mp hstep
    cases hw
    exact (h.fail hv).shown rfl
  | overBudget =>
    simp only [MultiWorld.step] at hstep
    split at hstep
    · next reaper cursor keys hpc =>
      cases hstep
      have hplaced := h.placed
      unfold Placed at hplaced
      rw [hpc] at hplaced
      refine Sound.shown ?_ rfl
      exact h.goesFreely (by rw [hpc]; rfl) (by rw [hpc]; exact fun _ _ hk => hk) nofun hplaced
    · cases hstep
  | spawn c =>
    simp only [MultiWorld.step] at hstep
    split at hstep
    · next hlive =>
      obtain ⟨k, hk, hrest⟩ := Option.bind_eq_some_iff.mp hstep
      obtain ⟨tasks, htasks, hw⟩ := Option.map_eq_some_iff.mp hrest
      cases hw
      exact (h.spawn hlive hk htasks).shown rfl
    · cases hstep
  | finish t =>
    obtain ⟨tasks, htasks, hw⟩ := Option.map_eq_some_iff.mp hstep
    cases hw
    exact (h.finish htasks).shown rfl
  | cloneClient c =>
    simp only [MultiWorld.step] at hstep
    split at hstep
    · next hlive =>
      cases hstep
      exact (h.cloneClient hlive).shown rfl
    · cases hstep
  | dropClient c =>
    simp only [MultiWorld.step] at hstep
    split at hstep
    · cases hstep
      exact (h.dropClient c).shown rfl
    · cases hstep
  | cloneDatabase d =>
    simp only [MultiWorld.step] at hstep
    split at hstep
    · next hfrom =>
      cases hstep
      exact (h.cloneDatabase hfrom).shown rfl
    · cases hstep
  | dropDatabase d =>
    simp only [MultiWorld.step] at hstep
    split at hstep
    · cases hstep
      exact (h.dropDatabase d).shown rfl
    · cases hstep
  | releaseDatabase c =>
    simp only [MultiWorld.step] at hstep
    split at hstep
    · next hdead =>
      cases hstep
      exact (h.releaseDatabase hdead.1 hdead.2).shown rfl
    · cases hstep
  | abortTasks c =>
    simp only [MultiWorld.step] at hstep
    split at hstep
    · next hreleased =>
      obtain ⟨k, hk, hrest⟩ := Option.bind_eq_some_iff.mp hstep
      obtain ⟨tasks, htasks, hw⟩ := Option.map_eq_some_iff.mp hrest
      cases hw
      exact (h.abortTasks hreleased hk htasks).shown rfl
    · cases hstep
  | close d =>
    simp only [MultiWorld.step] at hstep
    split at hstep
    · cases hstep
    · next hunowned =>
      cases hstep
      exact (h.close (Bool.not_eq_true _ ▸ hunowned)).shown rfl

/-- Nothing is loaded, and nothing is open. -/
theorem Sound.start (cursor : Option RostraId) :
    ({ retiredCursor := cursor } : MultiWorld).Sound maxClients [] := by
  have hclients : ∀ c k, (∅ : Table ClientRef ClientRecord).get c = some k → False :=
    fun c k hk => nomatch (Table.get_empty c).symm.trans hk
  have hinner : ∀ id c, (∅ : Table RostraId ClientRef).get id = some c → False :=
    fun id c hc => nomatch (Table.get_empty id).symm.trans hc
  have hretired : ∀ id e, (∅ : Table RostraId RetiredClient).get id = some e → False :=
    fun id e he => nomatch (Table.get_empty id).symm.trans he
  refine ⟨⟨fun n _ => ⟨Table.get_empty _, Table.get_empty _, Table.get_empty _⟩,
    fun c k hk => (hclients c k hk).elim, fun c hc => absurd hc (Finset.notMem_empty _),
    fun c hc => absurd hc (Finset.notMem_empty _), fun c hc => ?_, fun c k hk => (hclients c k hk).elim,
    fun c k hk => (hclients c k hk).elim, fun d hd => absurd hd (Multiset.notMem_zero _),
    fun c c' k k' hk => (hclients c k hk).elim, fun id c hc => (hinner id c hc).elim,
    fun id e he => (hretired id e he).elim⟩,
    ⟨fun t tasks ht => (nomatch (Table.get_empty t).symm.trans ht),
      fun d id hd => (nomatch (Table.get_empty d).symm.trans hd), fun id c e hc => (hinner id c hc).elim⟩,
    trivial, Nat.zero_le _, .inl rfl, fun id hid => absurd hid (Finset.notMem_empty _)⟩
  rw [alive_iff] at hc
  rcases hc with hc | ⟨id, hc⟩ | hc
  · exact absurd hc (Multiset.notMem_zero _)
  · exact (hinner id c hc).elim
  · cases hc

end Holder

/-! ## 5. Clients that were given to somebody

The invariant so far is about the world as it is. That a load returns the survivor needs the past as well: a client
that was once given to a caller, and is still alive, is the one that the maps lead to (`Known`). -/

section Given

variable {maxClients : ℕ} {w w' : MultiWorld} {trace : List MultiLabel}

/-- The client is loaded, or the entry of its identity leads to it. -/
def Found (w : MultiWorld) (id : RostraId) (c : ClientRef) : Prop :=
  w.inner.get id = some c ∨ ∃ e, w.retired.get id = some e ∧ e.client = some c

/-- **A client that was given to somebody is found as long as it lives.** This is what makes the next load of its
identity return it instead of building another one. -/
structure Known (w : MultiWorld) (trace : List MultiLabel) : Prop where
  built : ∀ id c, .returned id c ∈ trace → ∃ k, w.clients.get c = some k
  found : ∀ id c, .returned id c ∈ trace → w.alive c = true → w.Found id c

theorem Known.frame (h : w.Known trace)
    (hclients : ∀ c k, w.clients.get c = some k → w'.clients.get c = some k)
    (halive : ∀ c k, w.clients.get c = some k → w'.alive c = true → w.alive c = true)
    (hfound : ∀ id c, w'.alive c = true → w.Found id c → w'.Found id c) : w'.Known trace := by
  refine ⟨fun id c hc => ?_, fun id c hc hlive => ?_⟩
  · obtain ⟨k, hk⟩ := h.built id c hc
    exact ⟨k, hclients c k hk⟩
  · obtain ⟨k, hk⟩ := h.built id c hc
    exact hfound id c hlive (h.found id c hc (halive c k hk hlive))

/-- Most steps change neither map. -/
theorem Known.same (h : w.Known trace) (hclients : w'.clients = w.clients)
    (halive : ∀ c, w'.alive c = true → w.alive c = true) (hinner : w'.inner = w.inner)
    (hretired : w'.retired = w.retired) : w'.Known trace := by
  refine h.frame (fun c k hk => by rw [hclients]; exact hk) (fun c _ _ => halive c) fun id c _ hf => ?_
  unfold Found
  rw [hinner, hretired]
  exact hf

theorem Known.goesTo {pc : LoadPc} (h : w.Known trace)
    (hpc : ∀ c, pc.holdsClient c = true → w.pc.holdsClient c = true) :
    ({ w with pc := pc } : MultiWorld).Known trace :=
  h.same rfl (fun _ hlive => alive_moved hlive rfl rfl fun c hc => holdsClient_alive (hpc c hc)) rfl rfl

/-- Labels that give nothing. -/
theorem Known.shown {shown : List MultiLabel} (h : w.Known trace)
    (hshown : ∀ id c, .returned id c ∉ shown) : w.Known (trace ++ shown) := by
  refine ⟨fun id c hc => ?_, fun id c hc => ?_⟩
  · exact h.built id c ((List.mem_append.mp hc).resolve_right (hshown id c))
  · exact h.found id c ((List.mem_append.mp hc).resolve_right (hshown id c))

theorem Known.given {id : RostraId} {c : ClientRef} (h : w.Known trace)
    (hbuilt : ∃ k, w.clients.get c = some k ∧ k.id = id) (hc : w.inner.get id = some c) :
    w.Known (trace ++ [.used id, .returned id c]) := by
  refine ⟨fun id' c' hc' => ?_, fun id' c' hc' hlive => ?_⟩
  · rcases List.mem_append.mp hc' with hc' | hc'
    · exact h.built id' c' hc'
    · simp only [List.mem_cons, reduceCtorEq, MultiLabel.returned.injEq, List.not_mem_nil, or_false,
        false_or] at hc'
      obtain ⟨k, hk, -⟩ := hbuilt
      exact ⟨k, by rw [hc'.2, hk]⟩
  · rcases List.mem_append.mp hc' with hc' | hc'
    · exact h.found id' c' hc' hlive
    · simp only [List.mem_cons, reduceCtorEq, MultiLabel.returned.injEq, List.not_mem_nil, or_false,
        false_or] at hc'
      exact .inl (by rw [hc'.1, hc'.2, hc])

/-- An entry whose tasks have terminated leads to nobody. -/
theorem Linked.terminated_dead (hl : w.Linked) {id : RostraId} {e : RetiredClient} {t : TasksRef}
    {c : ClientRef} (he : w.retired.get id = some e) (ht : e.tasks = some t)
    (hdone : w.isTerminated t = true) (hc : e.client = some c) : w.alive c = false := by
  obtain ⟨-, t', tasks, ht', htasks, -, hclient⟩ := hl.kept id e he
  rw [ht] at ht'
  cases ht'
  obtain ⟨tasks', htasks', -, hreleased⟩ := hl.registered c _ (hclient c hc)
  have hsame : w.tasks.get t = some tasks' := htasks'
  rw [htasks] at hsame
  cases hsame
  rw [isTerminated, htasks, Option.any_some, ClientTasks.terminated, Bool.and_eq_true] at hdone
  exact hl.dead c (hreleased (by simpa using hdone.1))

theorem Known.reapOne {reaper : Reaper} {cursor : Option RostraId} {key : RostraId}
    {keys : List RostraId} (h : w.Known trace) (hl : w.Linked) :
    (w.reapOne reaper cursor key keys).Known trace := by
  unfold MultiWorld.reapOne
  split
  · exact h.goesTo nofun
  next entry hentry =>
  split
  · exact h.goesTo nofun
  next htasks =>
  dsimp only
  split
  · exact h.goesTo nofun
  refine h.frame (fun _ _ hk => hk) (fun _ _ _ hlive => alive_moved hlive rfl rfl nofun) fun id c hlive hf => ?_
  rcases hf with hc | ⟨e, he, hc⟩
  · exact .inl hc
  · refine .inr ⟨e, ?_, hc⟩
    refine (Table.get_remove_of_ne _ fun hid => ?_).trans he
    rw [hid, hentry] at he
    cases he
    obtain ⟨-, t, tasks, ht, htable, -, -⟩ := hl.kept key entry hentry
    rw [ht] at htasks
    have hdead := hl.terminated_dead hentry ht (by simpa [isTerminated, htable] using htasks) hc
    have hwas : w.alive c = true := alive_moved hlive rfl rfl nofun
    rw [hdead] at hwas
    cases hwas

theorem Known.reaped {reaper : Reaper} {cursor : Option RostraId} (h : w.Known trace) :
    (w.reaped reaper cursor).Known trace := by
  cases reaper with
  | cleanup => exact h.same rfl (fun _ hlive => alive_moved hlive rfl rfl nofun) rfl rfl
  | load id =>
    refine h.same rfl (fun _ hlive => alive_moved hlive rfl rfl fun c hc => ?_) rfl rfl
    simp only [MultiWorld.reaped] at hc
    split at hc
    · cases hc
    split at hc
    · next c' hc' =>
      rw [← of_decide_eq_true hc]
      exact (Option.filter_eq_some_iff.mp hc').2
    · split at hc
      · cases hc
      · cases hc

theorem Known.evictOne {id : RostraId} (h : w.Known trace)
    (hw : ∀ id c, w.pc ≠ .unretiring id c) (htracked : w.Tracked) :
    (w.evictOne id).Known trace := by
  unfold MultiWorld.evictOne
  split
  · exact h
  next c hc =>
  split
  · exact h
  next k hk =>
  refine h.frame (fun _ _ hk => hk) (fun x _ _ hx => ?_) fun x y _ hf => ?_
  · rw [alive_iff] at hx ⊢
    rcases hx with hx | ⟨y, hy⟩ | hx
    · exact .inl hx
    · have hget : (w.inner.remove id).get y = some x := hy
      rw [Table.get_remove] at hget
      split at hget
      · cases hget
      · exact .inr (.inl ⟨y, hget⟩)
    · exact .inr (.inr hx)
  · rcases hf with hy | ⟨e, he, hy⟩
    · by_cases hx : x = id
      · rw [hx, hc] at hy
        cases hy
        exact .inr ⟨_, by rw [hx]; exact Table.get_insert_self _ _ _, rfl⟩
      · exact .inl ((Table.get_remove_of_ne _ hx).trans hy)
    · refine .inr ⟨e, (Table.get_insert_of_ne _ _ fun hx => ?_).trans he, hy⟩
      rw [hx] at he
      exact hw id c (htracked.once id c e hc he)

theorem Known.evictAll {id : RostraId} {c : ClientRef} (ids : List RostraId) :
    ∀ {w : MultiWorld}, w.Evicting id c → w.Known trace →
      (ids.foldl MultiWorld.evictOne w).Known trace := by
  induction ids with
  | nil => exact fun _ h => h
  | cons id' ids ih =>
    intro w hev h
    refine ih (@Evicting.evictOne w id id' c hev) (h.evictOne (fun _ _ hw => ?_) hev.tracked)
    rw [hev.place] at hw
    cases hw

/-- The client is given to the caller, and the maps have it. -/
theorem Known.gives {id : RostraId} {c : ClientRef} (h : w.Known trace) (hl : w.Linked)
    (hc : w.inner.get id = some c) (kept : Bool) :
    ((w.updateUsageQueue id).give id c kept).1.Known
      (trace ++ ((w.updateUsageQueue id).give id c kept).2) := by
  have halive : ∀ c', ((w.updateUsageQueue id).give id c kept).1.alive c' = true → w.alive c' = true := by
    refine alive_cons (alive_iff.mpr (.inr (.inl ⟨id, hc⟩))) rfl (fun c' hc' => ?_) rfl nofun
    cases kept with
    | true => exact Multiset.mem_cons.mp hc'
    | false => exact .inr hc'
  exact Known.given (h.same rfl halive rfl rfl) (hl.loaded id c hc) hc

theorem Known.reap {reaper : Reaper} (h : w.Known trace) : (w.reap reaper).Known trace := by
  refine h.same rfl (fun _ hlive => alive_moved hlive rfl rfl fun c hc => ?_) rfl rfl
  simp only [MultiWorld.reap] at hc
  split at hc
  · cases hc
  · cases hc

/-- An entry that is replaced has no client left: its tasks have ended. -/
theorem Known.prepared {id : RostraId} {d : DatabaseRef} (h : w.Known trace) (hs : w.Sound maxClients trace)
    (hpc : w.pc = .prepared id d) :
    ({ w with
      next := w.next + 1
      tasks := w.tasks.insert w.next { id := id }
      retired := w.retired.insert id ⟨none, d, some w.next⟩
      retiredCleanupRunning := true
      pc := .constructing id d w.next } : MultiWorld).Known trace := by
  have hplaced := hs.placed
  unfold Placed at hplaced
  rw [hpc] at hplaced
  refine h.frame (fun _ _ hk => hk) (fun _ _ _ hlive => alive_moved hlive rfl rfl nofun) fun x c hlive hf => ?_
  rcases hf with hc | ⟨e, he, hc⟩
  · exact .inl hc
  · refine .inr ⟨e, (Table.get_insert_of_ne _ _ fun hx => ?_).trans he, hc⟩
    rw [hx] at he
    obtain ⟨-, t, -, ht, -⟩ := hs.linked.kept id e he
    have hdead := hs.linked.terminated_dead he ht ((hplaced.2.2 e he).2 t ht) hc
    have hwas : w.alive c = true := alive_moved hlive rfl rfl nofun
    rw [hdead] at hwas
    cases hwas

/-- A new client is under a new reference. -/
theorem Known.constructing {id : RostraId} {d : DatabaseRef} {t : TasksRef} (h : w.Known trace) (hl : w.Linked) :
    ({ w with
      next := w.next + 1
      clients := w.clients.insert w.next ⟨id, d, t⟩
      pc := .starting id w.next } : MultiWorld).Known trace := by
  obtain ⟨-, hnew, -⟩ := hl.fresh w.next le_rfl
  refine h.frame (fun _ _ => Table.get_insert_new hnew) (fun c k hk hlive => ?_) fun _ _ _ hf => hf
  rw [alive_iff] at hlive
  rcases hlive with hlive | hlive | hlive
  · exact alive_iff.mpr (.inl hlive)
  · exact alive_iff.mpr (.inr (.inl hlive))
  · rw [← of_decide_eq_true hlive, hnew] at hk
    cases hk

/-- What is evicted is retired. -/
theorem Known.evicting {id : RostraId} {c : ClientRef} (h : w.Known trace) (hs : w.Sound maxClients trace)
    (hpc : w.pc = .evicting id c) :
    ({ (w.maybeEvictClients maxClients).1 with pc := .inserting id c } : MultiWorld).Known
      (trace ++ (w.maybeEvictClients maxClients).2) := by
  have hplaced := hs.placed
  unfold Placed at hplaced
  rw [hpc] at hplaced
  have hev : w.Evicting id c := ⟨hs.linked, hs.tracked, hpc, hplaced.1, hplaced.2⟩
  unfold MultiWorld.maybeEvictClients
  split
  · exact Known.shown (h.goesTo (by rw [hpc]; exact fun _ hc => hc)) nofun
  · dsimp only
    refine Known.shown ?_ (by simp)
    refine (Known.evictAll (w.toEvict maxClients) hev h).same rfl
      (fun _ hlive => alive_moved hlive rfl rfl fun x hx => ?_) rfl rfl
    refine holdsClient_alive ?_
    rw [(hev.evictAll (w.toEvict maxClients)).1.place]
    exact hx

/-- Nothing was loaded where the client goes. -/
theorem Known.inserting {id : RostraId} {c : ClientRef} (h : w.Known trace) (hs : w.Sound maxClients trace)
    (hpc : w.pc = .inserting id c) :
    ({ w with inner := w.inner.insert id c, pc := .unretiring id c } : MultiWorld).Known trace := by
  have hplaced := hs.placed
  unfold Placed at hplaced
  rw [hpc] at hplaced
  have hheld : w.alive c = true := holdsClient_alive (by rw [hpc]; exact decide_eq_true rfl)
  refine h.frame (fun _ _ hk => hk) (fun x _ _ hx => ?_) fun x y _ hf => ?_
  · rw [alive_iff] at hx
    rcases hx with hx | ⟨y, hy⟩ | hx
    · exact alive_iff.mpr (.inl hx)
    · have hget : (w.inner.insert id c).get y = some x := hy
      rw [Table.get_insert] at hget
      split at hget
      · rw [← Option.some.inj hget]
        exact hheld
      · exact alive_iff.mpr (.inr (.inl ⟨y, hget⟩))
    · rw [← of_decide_eq_true hx]
      exact hheld
  · rcases hf with hy | hf
    · exact .inl (Table.get_insert_new hplaced.1 hy)
    · exact .inr hf

/-- The client of the entry that goes has just been loaded. -/
theorem Known.unretiring {id : RostraId} {c : ClientRef} (h : w.Known trace) (hs : w.Sound maxClients trace)
    (hpc : w.pc = .unretiring id c) :
    ({ w with retired := w.retired.remove id, pc := .queueing id c } : MultiWorld).Known trace := by
  have hplaced := hs.placed
  unfold Placed at hplaced
  rw [hpc] at hplaced
  obtain ⟨hloaded, k, e, hk, -, he, het, -⟩ := hplaced
  refine h.frame (fun _ _ hk => hk) (fun x _ _ hx => ?_) fun x y _ hf => ?_
  · exact alive_moved hx rfl rfl fun x hx => holdsClient_alive (by rw [hpc]; exact hx)
  · rcases hf with hy | ⟨e', he', hy⟩
    · exact .inl hy
    · by_cases hx : x = id
      · -- both have the registry of the entry
        rw [hx, he] at he'
        cases he'
        obtain ⟨-, t, -, ht, -, -, hclient⟩ := hs.linked.kept id e he
        rw [het] at ht
        refine .inl ?_
        rw [hx, hs.linked.separate y c _ k (hclient y hy) hk (Option.some.inj ht).symm]
        exact hloaded
      · exact .inr ⟨e', (Table.get_remove_of_ne _ hx).trans he', hy⟩

/-- **A statement of `load` or of a cleanup loses no client** that somebody was given and still has. -/
theorem Known.go {kept : Bool} {shown : List MultiLabel} (h : w.Known trace)
    (hs : w.Sound maxClients trace) (hgo : w.go maxClients kept = some (w', shown)) :
    w'.Known (trace ++ shown) := by
  have hl := hs.linked
  have hplaced := hs.placed
  unfold Placed at hplaced
  unfold MultiWorld.go at hgo
  cases hpc : w.pc with
  | idle =>
    rw [hpc] at hgo
    cases hgo
  | lookup id =>
    simp only [hpc] at hgo
    split at hgo
    · next c hc =>
      cases hgo
      exact h.gives hl hc kept
    · cases hgo
      exact h.reap.shown nofun
  | reaping reaper cursor keys =>
    cases keys with
    | nil =>
      simp only [hpc] at hgo
      cases hgo
      exact h.reaped.shown nofun
    | cons key keys =>
      simp only [hpc] at hgo
      cases hgo
      exact (h.reapOne hl).shown nofun
  | closing reaper key keys d =>
    simp only [hpc] at hgo
    split at hgo
    · cases hgo
      exact Known.shown (h.goesTo nofun) nofun
    · cases hgo
  | budget reaper cursor keys =>
    simp only [hpc] at hgo
    cases hgo
    exact Known.shown (h.goesTo nofun) nofun
  | opening id =>
    simp only [hpc] at hgo
    cases hgo
    exact Known.shown (h.same rfl (fun _ hlive => alive_moved hlive rfl rfl nofun) rfl rfl) (by simp)
  | attaching id d =>
    simp only [hpc] at hgo
    cases hgo
    exact Known.shown (h.goesTo nofun) nofun
  | discarding d =>
    simp only [hpc] at hgo
    split at hgo
    · cases hgo
      exact Known.shown (h.goesTo nofun) nofun
    · cases hgo
  | awaiting id d t =>
    simp only [hpc] at hgo
    split at hgo
    · cases hgo
      exact Known.shown (h.goesTo nofun) nofun
    · cases hgo
  | prepared id d =>
    simp only [hpc] at hgo
    cases hgo
    exact (h.prepared hs hpc).shown (by simp)
  | constructing id d t =>
    simp only [hpc] at hgo
    cases hgo
    exact (h.constructing hl).shown nofun
  | starting id c =>
    simp only [hpc] at hgo
    cases hgo
    exact Known.shown (h.goesTo (by rw [hpc]; exact fun _ hc => hc)) nofun
  | evicting id c =>
    simp only [hpc] at hgo
    cases hgo
    exact h.evicting hs hpc
  | inserting id c =>
    simp only [hpc] at hgo
    cases hgo
    exact (h.inserting hs hpc).shown nofun
  | unretiring id c =>
    simp only [hpc] at hgo
    cases hgo
    exact (h.unretiring hs hpc).shown nofun
  | queueing id c =>
    simp only [hpc] at hgo hplaced
    cases hgo
    exact h.gives hl hplaced kept

/-- A step that touches neither the clients nor the maps, and shows nothing. -/
theorem Known.quiet {v : MultiWorld} (h : w.Known trace) (hclients : v.clients = w.clients)
    (hhandles : v.clientHandles = w.clientHandles) (hinner : v.inner = w.inner) (hretired : v.retired = w.retired)
    (hpc : ∀ c, v.pc.holdsClient c = true → w.pc.holdsClient c = true) : v.Known (trace ++ []) := by
  refine Known.shown (h.same hclients (fun _ hlive => alive_moved hlive hhandles hinner ?_) hinner hretired) nofun
  exact fun c hc => holdsClient_alive (hpc c hc)

/-- A statement that fails gives nobody a client. -/
theorem Known.fail {v : MultiWorld} (h : w.Known trace) (hfail : w.fail = some v) : v.Known (trace ++ []) := by
  unfold MultiWorld.fail at hfail
  split at hfail
  · split at hfail
    · cases hfail
      exact h.quiet rfl rfl rfl rfl nofun
    · cases hfail
  · cases hfail
    exact h.quiet rfl rfl rfl rfl nofun
  · cases hfail
    exact h.quiet rfl rfl rfl rfl nofun
  · cases hfail
    exact h.quiet rfl rfl rfl rfl nofun
  · cases hfail
    exact h.quiet rfl rfl rfl rfl nofun
  · cases hfail

/-- **Every step keeps what is known of the clients.** A client that is taken out of `inner` is found in `retired`,
and one that is taken out of there is dead or on its way back. -/
theorem Known.step {act : MultiAct} {shown : List MultiLabel} (h : w.Known trace)
    (hs : w.Sound maxClients trace) (hstep : w.step maxClients act = some (w', shown)) :
    w'.Known (trace ++ shown) := by
  cases act with
  | touch id =>
    obtain ⟨c, hc, hw⟩ := Option.map_eq_some_iff.mp hstep
    cases hw
    refine Known.given (h.same rfl ?_ rfl rfl) (hs.linked.loaded id c hc) hc
    exact alive_cons (alive_iff.mpr (.inr (.inl ⟨id, hc⟩))) rfl (fun _ h => Multiset.mem_cons.mp h) rfl
      fun _ h => holdsClient_alive (w := w) h
  | load id =>
    simp only [MultiWorld.step] at hstep
    split at hstep
    · cases hstep
      exact h.quiet rfl rfl rfl rfl nofun
    · cases hstep
  | cleanup =>
    simp only [MultiWorld.step] at hstep
    split at hstep
    · cases hstep
      refine h.quiet rfl rfl rfl rfl fun c hc => ?_
      simp only [MultiWorld.reap] at hc
      split at hc
      · cases hc
      · cases hc
    · cases hstep
  | go => exact h.go hs hstep
  | abandoned => exact h.go hs hstep
  | fail =>
    obtain ⟨v, hv, hw⟩ := Option.map_eq_some_iff.mp hstep
    cases hw
    exact h.fail hv
  | overBudget =>
    simp only [MultiWorld.step] at hstep
    split at hstep
    · cases hstep
      exact h.quiet rfl rfl rfl rfl nofun
    · cases hstep
  | spawn c =>
    simp only [MultiWorld.step] at hstep
    split at hstep
    · obtain ⟨k, -, hrest⟩ := Option.bind_eq_some_iff.mp hstep
      obtain ⟨tasks, -, hw⟩ := Option.map_eq_some_iff.mp hrest
      cases hw
      exact h.quiet rfl rfl rfl rfl fun _ hc => hc
    · cases hstep
  | finish t =>
    obtain ⟨tasks, -, hw⟩ := Option.map_eq_some_iff.mp hstep
    cases hw
    exact h.quiet rfl rfl rfl rfl fun _ hc => hc
  | cloneClient c =>
    simp only [MultiWorld.step] at hstep
    split at hstep
    · next hlive =>
      cases hstep
      refine Known.shown (h.same rfl ?_ rfl rfl) nofun
      exact alive_cons hlive rfl (fun _ h => Multiset.mem_cons.mp h) rfl
        fun _ h => holdsClient_alive (w := w) h
    · cases hstep
  | dropClient c =>
    simp only [MultiWorld.step] at hstep
    split at hstep
    · cases hstep
      refine Known.shown (h.same rfl (fun c' hc' => ?_) rfl rfl) nofun
      rw [alive_iff] at hc' ⊢
      exact hc'.imp_left fun hc' => Multiset.mem_of_mem_erase hc'
    · cases hstep
  | cloneDatabase d =>
    simp only [MultiWorld.step] at hstep
    split at hstep
    · cases hstep
      exact h.quiet rfl rfl rfl rfl fun _ hc => hc
    · cases hstep
  | dropDatabase d =>
    simp only [MultiWorld.step] at hstep
    split at hstep
    · cases hstep
      exact h.quiet rfl rfl rfl rfl fun _ hc => hc
    · cases hstep
  | releaseDatabase c =>
    simp only [MultiWorld.step] at hstep
    split at hstep
    · cases hstep
      exact h.quiet rfl rfl rfl rfl fun _ hc => hc
    · cases hstep
  | abortTasks c =>
    simp only [MultiWorld.step] at hstep
    split at hstep
    · obtain ⟨k, -, hrest⟩ := Option.bind_eq_some_iff.mp hstep
      obtain ⟨tasks, -, hw⟩ := Option.map_eq_some_iff.mp hrest
      cases hw
      exact h.quiet rfl rfl rfl rfl fun _ hc => hc
    · cases hstep
  | close d =>
    simp only [MultiWorld.step] at hstep
    split at hstep
    · cases hstep
    · cases hstep
      exact h.quiet rfl rfl rfl rfl fun _ hc => hc

end Given

/-! ## 6. One live owner

Labels are what a caller or the file system sees: a file was opened, a client constructed, evicted, or given away.
`Warranted` is the promise of each of them, in terms of the world right before and right after its step; the main
result collects them, with the bound on the loaded clients and the order in which they are evicted. -/

section Owner

variable {maxClients : ℕ} {w w' : MultiWorld} {trace : List MultiLabel}

/-- A client that is alive has not terminated, so the next load finds its registry. -/
theorem Sound.alive_tracked (h : w.Sound maxClients trace) {c : ClientRef} {k : ClientRecord}
    (hk : w.clients.get c = some k) (hc : w.alive c = true) : w.inner.get k.id = some c ∨
      ∃ e, w.retired.get k.id = some e ∧ e.tasks = some k.tasks := by
  obtain ⟨tasks, htasks, hid, hreleased⟩ := h.linked.registered c k hk
  have hrun : tasks.running = true := by
    by_contra hstopped
    rw [h.linked.dead c (hreleased (Bool.not_eq_true _ ▸ hstopped))] at hc
    cases hc
  have hopen : tasks.terminated = false := by
    simp [ClientTasks.terminated, hrun]
  rcases h.tracked.tasks k.tasks tasks htasks hopen with ⟨c', k', hc', hk', heq⟩ | he
  · rw [hid, h.linked.separate c' c k' k hk' hk heq] at hc'
    exact .inl hc'
  · rw [hid] at he
    exact .inr he

/-- **An identity has one live client at most**: a live client is loaded or has the entry of its identity, and
where there are both they are of one client. -/
theorem Sound.alive_unique (h : w.Sound maxClients trace) {c c' : ClientRef} {k k' : ClientRecord}
    (hk : w.clients.get c = some k) (hk' : w.clients.get c' = some k') (hid : k.id = k'.id)
    (hc : w.alive c = true) (hc' : w.alive c' = true) : c = c' := by
  -- one is loaded and the other one has the entry: this is the window of the publication
  have hwindow : ∀ {x y : ClientRef} {i j : ClientRecord}, w.clients.get x = some i →
      w.clients.get y = some j → i.id = j.id → w.inner.get i.id = some x →
      (∃ e, w.retired.get j.id = some e ∧ e.tasks = some j.tasks) → x = y := by
    intro x y i j hi hj hij hx hy
    obtain ⟨e, he, het⟩ := hy
    rw [← hij] at he
    have hpc := h.tracked.once i.id x e hx he
    have hplaced := h.placed
    unfold Placed at hplaced
    rw [hpc] at hplaced
    obtain ⟨-, i', e', hi', -, he', het', -⟩ := hplaced
    rw [hi] at hi'
    cases hi'
    rw [he] at he'
    cases he'
    rw [het] at het'
    exact h.linked.separate x y i j hi hj (Option.some.inj het').symm
  rcases h.alive_tracked hk hc with hin | he
  · rcases h.alive_tracked hk' hc' with hin' | he'
    · rw [← hid, hin] at hin'
      exact Option.some.inj hin'
    · exact hwindow hk hk' hid hin he'
  · rcases h.alive_tracked hk' hc' with hin' | he'
    · exact (hwindow hk' hk hid.symm hin' he).symm
    · obtain ⟨e, he, het⟩ := he
      obtain ⟨e', he', het'⟩ := he'
      rw [← hid, he] at he'
      cases he'
      rw [het] at het'
      exact h.linked.separate c c' k k' hk hk' (Option.some.inj het')

/-- What a label promises of the world before the step, and after it. -/
def Warranted (maxClients : ℕ) (w w' : MultiWorld) (trace : List MultiLabel) : MultiLabel → Prop
  | .opened id _ => ∀ d, w.databases.get d ≠ some id
  | .constructing id =>
    (∀ t tasks, w.tasks.get t = some tasks → tasks.id = id → tasks.terminated = true) ∧
      ∀ c k, w.clients.get c = some k → k.id = id → w.alive c = false
  | .used id => ∃ c, w.inner.get id = some c
  | .evicted ids =>
    ids = (((Lru.order (uses trace)).filter (· ∈ w.inner.keys)).reverse.take
      (w.inner.keys.card + 1 - maxClients)) ∧
      ∀ id, w'.inner.get id = if id ∈ ids then none else w.inner.get id
  | .returned id c => (∃ k, w.clients.get c = some k ∧ k.id = id) ∧ w.alive c = true ∧
    ∀ c' k', w.clients.get c' = some k' → k'.id = id → w.alive c' = true → c' = c

theorem Sound.warrants_given (h : w.Sound maxClients trace) {id : RostraId} {c : ClientRef}
    (hc : w.inner.get id = some c) :
    ∀ label ∈ [MultiLabel.used id, .returned id c], w.Warranted maxClients w' trace label := by
  intro label hlabel
  rcases List.mem_pair.mp hlabel with rfl | rfl
  · exact ⟨c, hc⟩
  · obtain ⟨k, hk, hid⟩ := h.linked.loaded id c hc
    have hlive : w.alive c = true := alive_iff.mpr (.inr (.inl ⟨id, hc⟩))
    exact ⟨⟨k, hk, hid⟩, hlive, fun c' k' hk' hid' hc' =>
      h.alive_unique hk' hk (hid'.trans hid.symm) hc' hlive⟩

/-- Nothing of the identity is open where its file is opened. -/
theorem Sound.warrants_opened (h : w.Sound maxClients trace) {id : RostraId}
    (hpc : w.pc = .opening id) (d : DatabaseRef) : w.databases.get d ≠ some id := by
  intro hd
  have hplaced := h.placed
  unfold Placed at hplaced
  rw [hpc] at hplaced
  rcases h.tracked.databases d id hd with ⟨c, -, hc, -⟩ | ⟨e, he, -⟩ | hk
  · rw [hplaced.1] at hc
    cases hc
  · rw [hplaced.2] at he
    cases he
  · rw [hpc] at hk
    exact hk

/-- Nothing of the identity is running where a client is constructed. -/
theorem Sound.warrants_constructing (h : w.Sound maxClients trace) {id : RostraId} {d : DatabaseRef}
    (hpc : w.pc = .prepared id d) : w.Warranted maxClients w' trace (.constructing id) := by
  have hplaced := h.placed
  unfold Placed at hplaced
  rw [hpc] at hplaced
  obtain ⟨hmissing, -, hentry⟩ := hplaced
  have hdone : ∀ t tasks, w.tasks.get t = some tasks → tasks.id = id → tasks.terminated = true := by
    intro t tasks ht hid
    by_contra hopen
    rcases h.tracked.tasks t tasks ht (Bool.not_eq_true _ ▸ hopen) with ⟨c, k, hc, -⟩ | ⟨e, he, het⟩
    · rw [hid, hmissing] at hc
      cases hc
    · rw [hid] at he
      have hterm := (hentry e he).2 t het
      rw [isTerminated, ht, Option.any_some] at hterm
      exact hopen hterm
  refine ⟨hdone, fun c k hk hid => ?_⟩
  obtain ⟨tasks, htasks, htid, hreleased⟩ := h.linked.registered c k hk
  have hterm := hdone k.tasks tasks htasks (htid.trans hid)
  rw [ClientTasks.terminated, Bool.and_eq_true] at hterm
  exact h.linked.dead c (hreleased (by simpa using hterm.1))

/-- The least recently used clients go. -/
theorem Sound.warrants_evicted (h : w.Sound maxClients trace) {id : RostraId} {c : ClientRef}
    (hpc : w.pc = .evicting id c) : ∀ label ∈ (w.maybeEvictClients maxClients).2,
      w.Warranted maxClients { (w.maybeEvictClients maxClients).1 with pc := .inserting id c } trace
        label := by
  have hplaced := h.placed
  unfold Placed at hplaced
  rw [hpc] at hplaced
  unfold MultiWorld.maybeEvictClients
  split
  · exact fun label hlabel => absurd hlabel (List.not_mem_nil)
  · intro label hlabel
    rw [List.mem_singleton.mp hlabel]
    have hstart : w.Evicting id c := ⟨h.linked, h.tracked, hpc, hplaced.1, hplaced.2⟩
    refine ⟨?_, (hstart.evictAll (w.toEvict maxClients)).2.2⟩
    rw [← (h.ordered.quiet (by rw [hpc]; rfl)).1]
    rfl

/-- **Labels tell the truth.** A label is shown by one statement, and what it claims is read off the state in which
that statement was made. -/
theorem Sound.warrants {act : MultiAct} {shown : List MultiLabel} (h : w.Sound maxClients trace)
    (hstep : w.step maxClients act = some (w', shown)) :
    ∀ label ∈ shown, w.Warranted maxClients w' trace label := by
  have hgo : ∀ {kept}, w.go maxClients kept = some (w', shown) →
      ∀ label ∈ shown, w.Warranted maxClients w' trace label := by
    intro kept hgo
    have hplaced := h.placed
    unfold Placed at hplaced
    unfold MultiWorld.go at hgo
    split at hgo
    · cases hgo
    · split at hgo
      · next c hc =>
        cases hgo
        exact h.warrants_given hc
      · cases hgo
        nofun
    · cases hgo
      nofun
    · cases hgo
      nofun
    · split at hgo
      · cases hgo
        nofun
      · cases hgo
    · cases hgo
      nofun
    · next id hpc =>
      cases hgo
      intro label hlabel
      rw [List.mem_singleton.mp hlabel]
      exact h.warrants_opened hpc
    · cases hgo
      nofun
    · split at hgo
      · cases hgo
        nofun
      · cases hgo
    · split at hgo
      · cases hgo
        nofun
      · cases hgo
    · next id d hpc =>
      cases hgo
      intro label hlabel
      rw [List.mem_singleton.mp hlabel]
      exact h.warrants_constructing hpc
    · cases hgo
      nofun
    · cases hgo
      nofun
    · next id c hpc =>
      cases hgo
      exact h.warrants_evicted hpc
    · cases hgo
      nofun
    · cases hgo
      nofun
    · next id c hpc =>
      cases hgo
      rw [hpc] at hplaced
      exact h.warrants_given hplaced
  have hquiet : shown = [] → ∀ label ∈ shown, w.Warranted maxClients w' trace label := by
    rintro rfl
    nofun
  cases act with
  | touch id =>
    obtain ⟨c, hc, hw⟩ := Option.map_eq_some_iff.mp hstep
    cases hw
    exact h.warrants_given hc
  | go => exact hgo hstep
  | abandoned => exact hgo hstep
  | fail =>
    obtain ⟨v, -, hw⟩ := Option.map_eq_some_iff.mp hstep
    cases hw
    nofun
  | finish t =>
    obtain ⟨tasks, -, hw⟩ := Option.map_eq_some_iff.mp hstep
    cases hw
    nofun
  | spawn c =>
    simp only [MultiWorld.step] at hstep
    split at hstep
    · obtain ⟨k, -, hrest⟩ := Option.bind_eq_some_iff.mp hstep
      obtain ⟨tasks, -, hw⟩ := Option.map_eq_some_iff.mp hrest
      cases hw
      nofun
    · cases hstep
  | abortTasks c =>
    simp only [MultiWorld.step] at hstep
    split at hstep
    · obtain ⟨k, -, hrest⟩ := Option.bind_eq_some_iff.mp hstep
      obtain ⟨tasks, -, hw⟩ := Option.map_eq_some_iff.mp hrest
      cases hw
      nofun
    · cases hstep
  | _ =>
    refine hquiet ?_
    simp only [MultiWorld.step] at hstep
    grind

/-- The client that the holder of the lock has is returned by its next statements. -/
theorem evicting_returns {id : RostraId} {c : ClientRef} (hpc : w.pc = .evicting id c)
    (maxClients : ℕ) (shown : List MultiLabel) : .returned id c ∈
      ([MultiAct.go, .go, .go, .go].foldl (Machine.advance (step maxClients)) (w, shown)).2 := by
  simp [Machine.advance, MultiWorld.step, MultiWorld.go, hpc, MultiWorld.give]

/-- **The survivor is returned.**  A load that finds a client that was once given to somebody, and is
still alive, does not construct another one. -/
theorem survivor_returned (h : w.Sound maxClients trace) (hk : w.Known trace) {id : RostraId}
    {c : ClientRef} {cursor : Option RostraId} (hpc : w.pc = .reaping (.load id) cursor [])
    (hgiven : .returned id c ∈ trace) (hc : w.alive c = true) :
    .returned id c ∈ (Machine.run (step maxClients) w (List.replicate 5 .go)).2 := by
  have hplaced := h.placed
  unfold Placed at hplaced
  rw [hpc] at hplaced
  have hfound : ∃ e, w.retired.get id = some e ∧ e.client = some c := by
    rcases hk.found id c hgiven hc with hin | he
    · rw [hplaced id rfl] at hin
      cases hin
    · exact he
  obtain ⟨e, he, hec⟩ := hfound
  have hnext : Machine.advance (step maxClients) (w, []) .go = (w.reaped (.load id) cursor, []) := by
    simp [Machine.advance, MultiWorld.step, MultiWorld.go, hpc]
  have hplace : (w.reaped (.load id) cursor).pc = .evicting id c := by
    simp [MultiWorld.reaped, he, hec, Option.filter, hc]
  unfold Machine.run
  rw [List.replicate_succ, List.foldl_cons, hnext]
  exact evicting_returns hplace maxClients []

end Owner

end MultiWorld

/-- The invariant in every state of every interleaving. -/
theorem multiRan_sound (maxClients : ℕ) (cursor : Option RostraId) (acts : List MultiAct) :
    (multiRan maxClients cursor acts).1.Sound (multiMaxClients maxClients)
        (multiRan maxClients cursor acts).2 ∧
      (multiRan maxClients cursor acts).1.Known (multiRan maxClients cursor acts).2 := by
  refine Machine.run_invariant (J := fun (w : MultiWorld) trace =>
    w.Sound (multiMaxClients maxClients) trace ∧ w.Known trace) ⟨.start cursor, ⟨nofun, nofun⟩⟩ acts fun a _ w trace w' shown h hstep => ?_
  exact ⟨h.1.step (Nat.le_max_right _ _) hstep, h.2.step h.1 hstep⟩

/-- **One live owner of storage.**  Whatever loads, cancelled callers, failed constructions, clones and
drops outside, ends of tasks and passes of the reaper happen, in whatever order:

* what every label promises is true when it is shown: a file is opened only if no database of the identity
  is open, a client is constructed only if every registry of the identity has terminated and none of its
  clients is alive, a client that is returned is the only live one, and an eviction takes the identities
  whose last uses are the oldest;
* a load that finds a client alive that was once returned goes on to return it;
* there are never more clients than `max_clients`;
* outside of a publication the usage queue has exactly the loaded identities, each once;
* a database that is open belongs to the loaded client, to the retired entry or to the load in progress,
  or it has no owner left and the holder of the load lock is closing it. -/
theorem one_live_owner (maxClients : ℕ) (cursor : Option RostraId) (acts : List MultiAct) :
    let w := (multiRan maxClients cursor acts).1
    let trace := (multiRan maxClients cursor acts).2
    (∀ act w' shown, w.step (multiMaxClients maxClients) act = some (w', shown) →
      ∀ label ∈ shown, w.Warranted (multiMaxClients maxClients) w' trace label) ∧
    (∀ id c cursor', w.pc = .reaping (.load id) cursor' [] → .returned id c ∈ trace →
      w.alive c = true → .returned id c ∈
        (Machine.run (MultiWorld.step (multiMaxClients maxClients)) w (List.replicate 5 .go)).2) ∧
    w.inner.keys.card ≤ multiMaxClients maxClients ∧
    (w.pc.publishing = none → w.usageQueue.Nodup ∧ w.usageQueue.toFinset = w.inner.keys) ∧
    ∀ d id, w.databases.get d = some id →
      (∃ c k, w.inner.get id = some c ∧ w.clients.get c = some k ∧ k.database = d) ∨
      (∃ e, w.retired.get id = some e ∧ e.database = d) ∨ w.pc.holdsDatabase d = true ∨
      (w.owned d = false ∧ w.pc.Keeps id d) := by
  intro w trace
  obtain ⟨h, hknown⟩ := multiRan_sound maxClients cursor acts
  refine ⟨fun act w' shown hstep => h.warrants hstep,
    fun id c cursor' hpc hgiven hc => MultiWorld.survivor_returned h hknown hpc hgiven hc,
    h.ordered.room, h.ordered.exact, fun d id hd => ?_⟩
  rcases h.tracked.databases d id hd with hin | hin | hk
  · exact .inl hin
  · exact .inr (.inl hin)
  · refine .inr (.inr ?_)
    have hplaced := h.placed
    unfold MultiWorld.Placed at hplaced
    unfold LoadPc.Keeps at hk
    split at hk
    · next hpc => exact .inl (by rw [hpc]; exact decide_eq_true hk.2)
    · next hpc => exact .inl (by rw [hpc]; exact decide_eq_true hk.2)
    · next d' hpc =>
      rw [hpc] at hplaced
      rw [← hk]
      refine .inr ⟨hplaced, ?_⟩
      rw [hpc]
      rfl
    · next reaper key keys d' hpc =>
      rw [hpc] at hplaced
      rw [← hk]
      refine .inr ⟨hplaced.1, ?_⟩
      rw [hpc]
      rfl
    · exact hk.elim

end Rostra.Client
